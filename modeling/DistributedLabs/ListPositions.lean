import Mathlib.Data.List.Basic
import Mathlib.Tactic.SplitIfs

/-!
# Positions in a list that is updated or extended

What a position holds after one element was replaced, or appended.
-/

namespace DistributedLabs.ListPositions

variable {α : Type*} {l : List α} {i j : ℕ} {a b : α}

theorem getElem?_set_cases (h : (l.set i a)[j]? = some b) :
    j = i ∧ b = a ∨ j ≠ i ∧ l[j]? = some b := by
  rw [List.getElem?_set] at h
  split_ifs at h with hij
  · cases h
    exact Or.inl ⟨hij.symm, rfl⟩
  · exact Or.inr ⟨fun hji => hij hji.symm, h⟩

theorem getElem?_append_singleton_cases (h : (l ++ [a])[j]? = some b) :
    l[j]? = some b ∨ j = l.length ∧ b = a := by
  rcases Nat.lt_or_ge j l.length with hlt | hge
  · rw [List.getElem?_append_left hlt] at h
    exact Or.inl h
  · rw [List.getElem?_append_right hge, List.getElem?_singleton] at h
    split_ifs at h with hzero
    cases h
    exact Or.inr ⟨Nat.le_antisymm (Nat.le_of_sub_eq_zero hzero) hge, rfl⟩

/-- An appended list leaves the positions before it alone. -/
theorem getElem?_append_of_some (more : List α) (h : l[j]? = some b) :
    (l ++ more)[j]? = some b := by
  rw [List.getElem?_append_left (List.getElem?_eq_some_iff.mp h).1, h]

end DistributedLabs.ListPositions
