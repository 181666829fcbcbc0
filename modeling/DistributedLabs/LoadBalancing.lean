import Mathlib.Algebra.BigOperators.Group.Finset.Basic
import Mathlib.Algebra.BigOperators.Ring.Finset
import Mathlib.Algebra.Order.BigOperators.Group.Finset
import Mathlib.Data.Fintype.Card
import Mathlib.Tactic.Linarith
import Mathlib.Tactic.Ring

/-!
# Items in bins

Finitely many items are assigned to bins. A set of bins is balanced if no two of them differ by
more than one item. Giving an item from outside to a bin that has the fewest keeps it so, and
moving an item from a bin that has the most to one that has the fewest lowers the sum of the squares
of the loads. When empty bins are added to a balanced set, such moves go from the old bins to the
new ones only.
-/

namespace DistributedLabs.LoadBalancing
open Finset

variable {S G : Type*} [Fintype S] [DecidableEq G] {A : Finset G} {f : S → G} {s : S} {g h : G}

/-- How many items a bin has. -/
def load (f : S → G) (g : G) : ℕ := #{s | f s = g}

theorem load_pos_iff : 0 < load f g ↔ ∃ s, f s = g := by
  simp [load, card_pos, Finset.Nonempty]

section Update
variable [DecidableEq S]

theorem load_update_of_ne (hg : h ≠ g) (hs : h ≠ f s) : load (Function.update f s g) h = load f h := by
  unfold load
  congr 1
  ext t
  rcases eq_or_ne t s with rfl | hne
  · simp [hg.symm, hs.symm]
  · simp [hne]

theorem load_update_new (hs : f s ≠ g) : load (Function.update f s g) g = load f g + 1 := by
  have hinsert : univ.filter (fun t => Function.update f s g t = g) =
      insert s (univ.filter fun t => f t = g) := by
    ext t
    rcases eq_or_ne t s with rfl | hne
    · simp
    · simp [hne]
  rw [load, hinsert, card_insert_of_notMem (by simp [hs]), load]

theorem load_update_old (hs : f s ≠ g) : load (Function.update f s g) (f s) + 1 = load f (f s) := by
  have hinsert : univ.filter (fun t => f t = f s) =
      insert s (univ.filter fun t => Function.update f s g t = f s) := by
    ext t
    rcases eq_or_ne t s with rfl | hne
    · simp
    · simp [hne]
  rw [load, load, hinsert, card_insert_of_notMem (by simp [hs.symm])]

end Update

def IsBalanced (A : Finset G) (f : S → G) : Prop := ∀ g ∈ A, ∀ h ∈ A, load f g ≤ load f h + 1

structure Fewest (A : Finset G) (f : S → G) (g : G) : Prop where
  mem : g ∈ A
  le : ∀ h ∈ A, load f g ≤ load f h

structure Most (A : Finset G) (f : S → G) (g : G) : Prop where
  mem : g ∈ A
  ge : ∀ h ∈ A, load f h ≤ load f g

theorem IsBalanced.mono {A' : Finset G} (hA : IsBalanced A f) (hsub : A' ⊆ A) : IsBalanced A' f :=
  fun g hg h hh => hA g (hsub hg) h (hsub hh)

/-- An item from outside goes to a bin that has the fewest. -/
theorem IsBalanced.give [DecidableEq S] (hA : IsBalanced A f) (hs : f s ∉ A) (hg : Fewest A f g) :
    IsBalanced A (Function.update f s g) := by
  have hne : f s ≠ g := fun heq => hs (heq ▸ hg.mem)
  have hother : ∀ h ∈ A, h ≠ g → load (Function.update f s g) h = load f h := by
    intro h hh hhg
    exact load_update_of_ne hhg fun heq => hs (heq ▸ hh)
  intro a ha b hb
  rcases eq_or_ne a g with hag | hag <;> rcases eq_or_ne b g with hbg | hbg
  · rw [hag, hbg]
    exact Nat.le_succ _
  · rw [hag, load_update_new hne, hother b hb hbg]
    exact Nat.succ_le_succ (hg.le b hb)
  · rw [hbg, load_update_new hne, hother a ha hag]
    exact (hA a ha g hg.mem).trans (Nat.le_succ _)
  · rw [hother a ha hag, hother b hb hbg]
    exact hA a ha b hb

/-- If the most and the fewest are close, all are. -/
theorem balanced_of_close {m l : G} (hm : Most A f m) (hl : Fewest A f l)
    (hclose : load f m < load f l + 2) : IsBalanced A f := by
  intro a ha b hb
  have hle := hm.ge a ha
  have hge := hl.le b hb
  omega

/-- The sum of the squares of the loads. -/
def imbalance (A : Finset G) (f : S → G) : ℕ := ∑ g ∈ A, load f g ^ 2

theorem imbalance_move [DecidableEq S] (hs : f s ∈ A) (hg : g ∈ A) (hgap : load f g + 2 ≤ load f (f s)) :
    imbalance A (Function.update f s g) < imbalance A f := by
  have hne : f s ≠ g := by
    intro heq
    rw [heq] at hgap
    omega
  have hsplit : ∀ F : G → ℕ, ∑ x ∈ A, F x = F (f s) + (F g + ∑ x ∈ (A.erase (f s)).erase g, F x) := by
    intro F
    rw [← add_sum_erase A F hs, ← add_sum_erase _ F (mem_erase.mpr ⟨hne.symm, hg⟩)]
  have hrest : ∑ x ∈ (A.erase (f s)).erase g, load (Function.update f s g) x ^ 2 =
      ∑ x ∈ (A.erase (f s)).erase g, load f x ^ 2 := by
    apply sum_congr rfl
    intro x hx
    simp only [mem_erase] at hx
    rw [load_update_of_ne hx.1 hx.2.1]
  have hold := load_update_old hne
  have hnew := load_update_new hne
  unfold imbalance
  rw [hsplit, hsplit fun x => load f x ^ 2, hrest, hnew, ← hold]
  nlinarith

theorem imbalance_le (hf : ∀ s, f s ∈ A) : imbalance A f ≤ Fintype.card S ^ 2 := by
  have hsum : ∑ g ∈ A, load f g = Fintype.card S :=
    (card_eq_sum_card_fiberwise fun s _ => hf s).symm
  calc imbalance A f ≤ ∑ g ∈ A, load f g * Fintype.card S := by
        apply sum_le_sum
        intro g _
        rw [sq]
        exact Nat.mul_le_mul_left _ (card_le_univ _)
    _ = Fintype.card S ^ 2 := by rw [← sum_mul, hsum, sq]

/-- The old bins are balanced, so are the new ones, and no new bin has more than an old one. -/
structure Filling (old new : Finset G) (f : S → G) : Prop where
  balancedOld : IsBalanced old f
  balancedNew : IsBalanced new f
  le : ∀ g ∈ new, ∀ h ∈ old, load f g ≤ load f h

variable {old new : Finset G}

theorem filling_of_empty (hold : IsBalanced old f) (hnew : ∀ g ∈ new, load f g = 0) :
    Filling old new f where
  balancedOld := hold
  balancedNew g hg h hh := by
    rw [hnew g hg]
    exact Nat.zero_le _
  le g hg h hh := by
    rw [hnew g hg]
    exact Nat.zero_le _

/-- A move goes from an old bin to a new one. -/
theorem Filling.move [DecidableEq S] (h : Filling old new f) (hdisjoint : Disjoint old new)
    (hmost : Most (old ∪ new) f (f s)) (hfewest : Fewest (old ∪ new) f g)
    (hgap : load f g + 2 ≤ load f (f s)) :
    f s ∈ old ∧ g ∈ new ∧ Filling old new (Function.update f s g) := by
  have hg : g ∈ new := by
    rcases mem_union.mp hfewest.mem with hg | hg
    · rcases mem_union.mp hmost.mem with hs | hs
      · have := h.balancedOld (f s) hs g hg
        omega
      · have := h.le (f s) hs g hg
        omega
    · exact hg
  have hs : f s ∈ old := by
    rcases mem_union.mp hmost.mem with hs | hs
    · exact hs
    · have := h.balancedNew (f s) hs g hg
      omega
  have hne : f s ≠ g := fun heq => disjoint_left.mp hdisjoint hs (heq ▸ hg)
  have hold := load_update_old hne
  have hnew := load_update_new hne
  -- the old bins stay within one below the most, the new ones within one above the fewest
  have hboundOld : ∀ x ∈ old, load (Function.update f s g) x ≤ load f (f s) ∧
      load f (f s) ≤ load (Function.update f s g) x + 1 := by
    intro x hx
    rcases eq_or_ne x (f s) with heq | hxs
    · rw [heq]
      omega
    · have hxg : x ≠ g := fun heq => disjoint_left.mp hdisjoint hx (heq ▸ hg)
      rw [load_update_of_ne hxg hxs]
      exact ⟨hmost.ge x (mem_union_left _ hx), h.balancedOld (f s) hs x hx⟩
  have hboundNew : ∀ x ∈ new, load f g ≤ load (Function.update f s g) x ∧
      load (Function.update f s g) x ≤ load f g + 1 := by
    intro x hx
    rcases eq_or_ne x g with heq | hxg
    · rw [heq]
      omega
    · have hxs : x ≠ f s := fun heq => disjoint_left.mp hdisjoint hs (heq ▸ hx)
      rw [load_update_of_ne hxg hxs]
      exact ⟨hfewest.le x (mem_union_right _ hx), h.balancedNew x hx g hg⟩
  refine ⟨hs, hg, fun x hx y hy => ?_, fun x hx y hy => ?_, fun x hx y hy => ?_⟩
  · exact (hboundOld x hx).1.trans (hboundOld y hy).2
  · exact (hboundNew x hx).2.trans (Nat.succ_le_succ (hboundNew y hy).1)
  · have hx := (hboundNew x hx).2
    have hy := (hboundOld y hy).2
    omega

end DistributedLabs.LoadBalancing
