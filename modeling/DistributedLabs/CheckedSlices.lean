import Mathlib.Data.Int.Basic
import Mathlib.Data.List.Basic

/-!
# Slice expressions that can be out of range

Index and slice expressions over a list with integer positions, as a language with
bounds checks evaluates them: the result is `none` where the check fails. Differences
of natural numbers are kept as integers, so a position below zero is seen.
-/

namespace DistributedLabs.CheckedSlices

variable {α : Type*} {s : List α}

/-- `s[i]` -/
def index (s : List α) (i : ℤ) : Option α := if i < 0 then none else s[i.toNat]?

/-- `s[i:]` -/
def sliceFrom (s : List α) (i : ℤ) : Option (List α) :=
  if i < 0 ∨ s.length < i then none else some (s.drop i.toNat)

/-- `s[:i]`, which is also refused between the length and the capacity of `s`. -/
def sliceTo (s : List α) (i : ℤ) : Option (List α) :=
  if i < 0 ∨ s.length < i then none else some (s.take i.toNat)

/-- An assignment to a part of `s[i]`. -/
def assign (s : List α) (i : ℤ) (f : α → α) : Option (List α) :=
  (index s i).map fun _ => s.modify i.toNat f

/-- A new slice with room for `capacity` elements. -/
def makeWithCapacity (α : Type*) (capacity : ℤ) : Option (List α) :=
  if capacity < 0 then none else some []

theorem index_of_nonneg {i : ℤ} (h : 0 ≤ i) : index s i = s[i.toNat]? := if_neg (Int.not_lt.mpr h)

@[simp] theorem index_natCast (k : ℕ) : index s k = s[k]? := index_of_nonneg (Int.natCast_nonneg k)

theorem index_sub {a b : ℕ} (h : b ≤ a) : index s ((a : ℤ) - b) = s[a - b]? := by
  rw [← Int.ofNat_sub h, index_natCast]

theorem sliceFrom_natCast {k : ℕ} (h : k ≤ s.length) : sliceFrom s k = some (s.drop k) := by
  rw [sliceFrom, if_neg (by omega), Int.toNat_natCast]

theorem sliceTo_sub {a b : ℕ} (hb : b ≤ a) (h : a - b ≤ s.length) :
    sliceTo s ((a : ℤ) - b) = some (s.take (a - b)) := by
  rw [← Int.ofNat_sub hb, sliceTo, if_neg (by omega), Int.toNat_natCast]

theorem assign_zero_cons (x : α) (f : α → α) : assign (x :: s) 0 f = some (f x :: s) := by
  simp [assign, index]

theorem makeWithCapacity_of_nonneg {capacity : ℤ} (h : 0 ≤ capacity) :
    makeWithCapacity α capacity = some [] := if_neg (Int.not_lt.mpr h)

end DistributedLabs.CheckedSlices
