import Mathlib.Data.List.Basic

/-!
# Byte strings that are not UTF-8

A scan of a byte string takes one character at a time. Where no character is encoded it
takes one byte and puts the replacement character `U+FFFD` in its place. The scan
leaves a string alone if and only if the string is valid, and what it leaves is valid.
-/

namespace DistributedLabs.Utf8

/-- The bytes behind a leading byte: how many, and the range of the first of them. -/
def leading (b : UInt8) : Option (ℕ × UInt8 × UInt8) :=
  if b ≤ 0x7F then some (0, 0x80, 0xBF)
  else if 0xC2 ≤ b ∧ b ≤ 0xDF then some (1, 0x80, 0xBF)
  else if b = 0xE0 then some (2, 0xA0, 0xBF)
  else if b = 0xED then some (2, 0x80, 0x9F)
  else if 0xE1 ≤ b ∧ b ≤ 0xEF then some (2, 0x80, 0xBF)
  else if b = 0xF0 then some (3, 0x90, 0xBF)
  else if 0xF1 ≤ b ∧ b ≤ 0xF3 then some (3, 0x80, 0xBF)
  else if b = 0xF4 then some (3, 0x80, 0x8F)
  else none

/-- The string starts with `k` bytes that may follow: the first in the given range, the others
any continuation bytes. -/
def continues (lo hi : UInt8) : ℕ → List UInt8 → Bool
  | 0, _ => true
  | _ + 1, [] => false
  | k + 1, b :: rest => decide (lo ≤ b ∧ b ≤ hi) && continues 0x80 0xBF k rest

/-- The number of bytes behind the first in the character that `b :: rest` starts with. -/
def trailing (b : UInt8) (rest : List UInt8) : Option ℕ :=
  (leading b).bind fun (k, lo, hi) => if continues lo hi k rest then some k else none

/-- `U+FFFD` -/
def replacement : List UInt8 := [0xEF, 0xBF, 0xBD]

/-- The scan, with `k` bytes of the present character still to come. -/
def replaceFrom : ℕ → List UInt8 → List UInt8
  | _, [] => []
  | k + 1, b :: rest => b :: replaceFrom k rest
  | 0, b :: rest => match trailing b rest with
    | some k => b :: replaceFrom k rest
    | none => replacement ++ replaceFrom 0 rest

def validFrom : ℕ → List UInt8 → Bool
  | _, [] => true
  | k + 1, _ :: rest => validFrom k rest
  | 0, b :: rest => match trailing b rest with
    | some k => validFrom k rest
    | none => false

/-- Every byte that belongs to no character is replaced. -/
def replaceInvalid (s : List UInt8) : List UInt8 := replaceFrom 0 s

def Valid (s : List UInt8) : Prop := validFrom 0 s = true

instance (s : List UInt8) : Decidable (Valid s) := inferInstanceAs (Decidable (_ = true))

theorem replaceFrom_of_valid {k : ℕ} {s : List UInt8} (h : validFrom k s) : replaceFrom k s = s := by
  induction s generalizing k with
  | nil => cases k <;> rfl
  | cons b rest ih =>
    cases k with
    | succ k =>
      rw [replaceFrom, ih h]
    | zero =>
      unfold validFrom at h
      unfold replaceFrom
      cases ht : trailing b rest with
      | none =>
        rw [ht] at h
        cases h
      | some k =>
        rw [ht] at h
        exact congrArg (b :: ·) (ih h)

theorem length_le_replaceFrom (k : ℕ) (s : List UInt8) : s.length ≤ (replaceFrom k s).length := by
  induction s generalizing k with
  | nil => exact Nat.zero_le _
  | cons b rest ih =>
    cases k with
    | succ k => exact Nat.succ_le_succ (ih k)
    | zero =>
      unfold replaceFrom
      cases trailing b rest with
      | some k => exact Nat.succ_le_succ (ih k)
      | none =>
        have := ih 0
        simp only [replacement, List.length_append, List.length_cons, List.length_nil]
        omega

/-- A replaced byte makes the string longer. -/
theorem length_lt_replaceFrom {k : ℕ} {s : List UInt8} (h : validFrom k s = false) :
    s.length < (replaceFrom k s).length := by
  induction s generalizing k with
  | nil => cases k <;> cases h
  | cons b rest ih =>
    cases k with
    | succ k => exact Nat.succ_lt_succ (ih h)
    | zero =>
      unfold validFrom at h
      unfold replaceFrom
      cases ht : trailing b rest with
      | some k =>
        rw [ht] at h
        exact Nat.succ_lt_succ (ih h)
      | none =>
        have := length_le_replaceFrom 0 rest
        simp only [replacement, List.length_append, List.length_cons, List.length_nil]
        omega

theorem replaceInvalid_eq_self_iff {s : List UInt8} : replaceInvalid s = s ↔ Valid s := by
  constructor
  · intro h
    unfold Valid
    by_contra hnot
    have hlt := length_lt_replaceFrom (Bool.eq_false_iff.mpr hnot)
    exact Nat.ne_of_gt hlt (congrArg List.length h)
  · exact replaceFrom_of_valid

theorem length_of_continues {lo hi : UInt8} {k : ℕ} {s : List UInt8} (h : continues lo hi k s) :
    k ≤ s.length := by
  induction k generalizing lo hi s with
  | zero => exact Nat.zero_le _
  | succ k ih =>
    cases s with
    | nil => cases h
    | cons b rest =>
      simp only [continues, Bool.and_eq_true] at h
      exact Nat.succ_le_succ (ih h.2)

theorem continues_congr {lo hi : UInt8} {k : ℕ} {s t : List UInt8} (h : s.take k = t.take k) :
    continues lo hi k s = continues lo hi k t := by
  induction k generalizing lo hi s t with
  | zero => cases s <;> cases t <;> rfl
  | succ k ih =>
    cases s with
    | nil =>
      cases t with
      | nil => rfl
      | cons b rest => simp at h
    | cons b rest =>
      cases t with
      | nil => simp at h
      | cons b' rest' =>
        simp only [List.take_succ_cons, List.cons.injEq] at h
        rw [h.1, continues, continues, ih h.2]

theorem trailing_congr {b : UInt8} {k : ℕ} {s t : List UInt8} (h : trailing b s = some k)
    (heq : s.take k = t.take k) : k ≤ s.length ∧ trailing b t = some k := by
  unfold trailing at h ⊢
  obtain ⟨⟨k', lo, hi⟩, hlead, hif⟩ := Option.bind_eq_some_iff.mp h
  rw [hlead, Option.bind_some]
  dsimp only at hif ⊢
  split_ifs at hif with hcont
  cases hif
  rw [← continues_congr heq, if_pos hcont]
  exact ⟨length_of_continues hcont, rfl⟩

theorem take_replaceFrom {k : ℕ} {s : List UInt8} (h : k ≤ s.length) :
    (replaceFrom k s).take k = s.take k := by
  induction s generalizing k with
  | nil =>
    obtain rfl : k = 0 := Nat.eq_zero_of_le_zero h
    rfl
  | cons b rest ih =>
    cases k with
    | zero => rw [List.take_zero, List.take_zero]
    | succ k => rw [replaceFrom, List.take_succ_cons, List.take_succ_cons, ih (Nat.le_of_succ_le_succ h)]

theorem validFrom_replaceFrom (k : ℕ) (s : List UInt8) : validFrom k (replaceFrom k s) := by
  induction s generalizing k with
  | nil => cases k <;> rfl
  | cons b rest ih =>
    cases k with
    | succ k => exact ih k
    | zero =>
      unfold replaceFrom
      cases ht : trailing b rest with
      | none =>
        exact ih 0
      | some k =>
        have hk : k ≤ rest.length := (trailing_congr ht rfl).1
        have hsame := (trailing_congr ht (take_replaceFrom hk).symm).2
        simp only [validFrom, hsame]
        exact ih k

theorem valid_replaceInvalid (s : List UInt8) : Valid (replaceInvalid s) := validFrom_replaceFrom 0 s

example : replaceInvalid [0x61, 0xFF, 0xC3, 0xA9] = [0x61, 0xEF, 0xBF, 0xBD, 0xC3, 0xA9] := by decide

end DistributedLabs.Utf8
