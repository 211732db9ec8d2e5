import Mathlib.Algebra.GroupWithZero.Nat
import Mathlib.Algebra.BigOperators.Group.List.Basic
import Mathlib.Tactic.Common

/-! Slices of a list, and fields laid out in it one after another. -/

namespace Slices

section
variable {α : Type*}

/-- A list with `ys` in place of the elements from `pos` on. -/
def splice (pos : Nat) (ys xs : List α) : List α := xs.take pos ++ ys ++ xs.drop (pos + ys.length)

variable {pos len other count : Nat} {xs ys : List α}

theorem length_splice (within : pos + ys.length ≤ xs.length) : (splice pos ys xs).length = xs.length := by
  simp only [splice, List.length_append, List.length_take, List.length_drop]
  omega

end

/-- Where the field at `i` starts. -/
def offset (sizes : List Nat) (i : Nat) : Nat := (sizes.take i).sum

section
variable {sizes : List Nat} {i j size : Nat}

theorem offset_succ (found : sizes[i]? = some size) : offset sizes (i + 1) = offset sizes i + size := by
  rw [offset, List.take_add_one, found, List.sum_append]
  exact congrArg (offset sizes i + ·) List.sum_singleton

theorem offset_of_length_le (long : sizes.length ≤ i) : offset sizes i = sizes.sum := by
  rw [offset, List.take_of_length_le long]

theorem offset_mono (le : i ≤ j) : offset sizes i ≤ offset sizes j := by
  have split : sizes.take i = (sizes.take j).take i := by rw [List.take_take, Nat.min_eq_left le]
  have whole := List.sum_take_add_sum_drop (sizes.take j) i
  rw [offset, offset, split]
  omega

theorem offset_add_le (found : sizes[i]? = some size) : offset sizes i + size ≤ sizes.sum := by
  rw [← offset_succ found, ← offset_of_length_le (Nat.le_max_right (i + 1) sizes.length)]
  exact offset_mono (Nat.le_max_left _ _)

/-- An earlier field ends before a later one starts. -/
theorem offset_add_le_offset (less : i < j) (found : sizes[i]? = some size) :
    offset sizes i + size ≤ offset sizes j := by
  rw [← offset_succ found]
  exact offset_mono less

end

end Slices
