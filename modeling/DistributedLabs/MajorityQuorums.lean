import Mathlib.Data.Fintype.Card
import Mathlib.Data.List.Sort

/-!
# Majorities

Two majorities of one finite set meet, and the middle order statistic of a
vector is the largest value that a majority of its positions reach.
-/

namespace DistributedLabs.MajorityQuorums

variable {S : Type*} [Fintype S]

/-- More than half of all members. -/
def Majority (Q : Finset S) : Prop := Fintype.card S < 2 * Q.card

theorem Majority.inter [DecidableEq S] {P Q : Finset S} (hP : Majority P) (hQ : Majority Q) :
    ∃ v, v ∈ P ∧ v ∈ Q := by
  have hu : (P ∪ Q).card ≤ Fintype.card S := Finset.card_le_univ _
  have hc := Finset.card_union_add_card_inter P Q
  have hpos : 0 < (P ∩ Q).card := by
    unfold Majority at hP hQ
    omega
  obtain ⟨v, hv⟩ := Finset.card_pos.mp hpos
  exact ⟨v, (Finset.mem_inter.mp hv).1, (Finset.mem_inter.mp hv).2⟩

private theorem countP_ge_of_sorted {l : List ℕ} (hl : l.Pairwise (· ≤ ·)) {k x : ℕ}
    (hk : l[k]? = some x) : l.length - k ≤ l.countP (x ≤ ·) := by
  have hsplit : l = l.take k ++ l.drop k := (List.take_append_drop k l).symm
  have hall : ∀ y ∈ l.drop k, decide (x ≤ y) = true := by
    intro y hy
    obtain ⟨j, hj, rfl⟩ := List.mem_iff_getElem.mp hy
    obtain ⟨hk', rfl⟩ := List.getElem?_eq_some_iff.mp hk
    simp only [List.getElem_drop, decide_eq_true_eq]
    rcases Nat.eq_zero_or_pos j with rfl | hpos
    · simp
    · exact List.pairwise_iff_getElem.mp hl k (k + j) hk' (by simp at hj; omega) (by omega)
  calc l.length - k = (l.drop k).countP (x ≤ ·) := by
        rw [List.countP_eq_length.mpr hall, List.length_drop]
    _ ≤ l.countP (x ≤ ·) := by
        conv_rhs => rw [hsplit, List.countP_append]
        omega

private theorem countP_gt_of_sorted {l : List ℕ} (hl : l.Pairwise (· ≤ ·)) {k x y : ℕ}
    (hk : l[k]? = some x) (hxy : x < y) : l.countP (y ≤ ·) ≤ l.length - (k + 1) := by
  have hsplit : l = l.take (k + 1) ++ l.drop (k + 1) := (List.take_append_drop (k + 1) l).symm
  have hnone : (l.take (k + 1)).countP (y ≤ ·) = 0 := by
    refine List.countP_eq_zero.mpr fun z hz => ?_
    obtain ⟨j, hj, rfl⟩ := List.mem_take_iff_getElem.mp hz
    obtain ⟨hk', rfl⟩ := List.getElem?_eq_some_iff.mp hk
    rw [decide_eq_true_eq, not_le]
    rcases Nat.lt_or_ge j k with hjk | hjk
    · exact (List.pairwise_iff_getElem.mp hl j k (by omega) hk' hjk).trans_lt hxy
    · obtain rfl : j = k := by omega
      exact hxy
  calc l.countP (y ≤ ·) = (l.drop (k + 1)).countP (y ≤ ·) := by
        conv_lhs => rw [hsplit, List.countP_append, hnone, Nat.zero_add]
    _ ≤ (l.drop (k + 1)).length := List.countP_le_length
    _ = l.length - (k + 1) := List.length_drop

section Median
variable {n : ℕ} (f : Fin n → ℕ)

private theorem card_reaching (x : ℕ) : (Finset.univ.filter (fun i => x ≤ f i)).card =
    ((List.ofFn f).insertionSort (· ≤ ·)).countP (x ≤ ·) := by
  rw [(List.perm_insertionSort (· ≤ ·) (List.ofFn f)).countP_eq, List.ofFn_eq_map, List.countP_map,
    Finset.card_def, Finset.filter_val, ← Multiset.countP_eq_card_filter, Fin.univ_def]
  exact Multiset.coe_countP _ _

variable {f} {x : ℕ} (hx : ((List.ofFn f).insertionSort (· ≤ ·))[(n - 1) / 2]? = some x)
include hx

/-- The entry at position `(n - 1) / 2` of the sorted vector is reached by a majority. -/
theorem majority_of_median : Majority (Finset.univ.filter (fun i => x ≤ f i)) := by
  have hcount := countP_ge_of_sorted (List.pairwise_insertionSort (· ≤ ·) (List.ofFn f)) hx
  have hlen : ((List.ofFn f).insertionSort (· ≤ ·)).length = n := by simp
  have hlt : (n - 1) / 2 < n := by
    obtain ⟨h, -⟩ := List.getElem?_eq_some_iff.mp hx
    rwa [hlen] at h
  unfold Majority
  rw [Fintype.card_fin, card_reaching]
  omega

/-- No majority reaches more than that entry. -/
theorem le_median_of_majority {y : ℕ} (h : Majority (Finset.univ.filter (fun i => y ≤ f i))) :
    y ≤ x := by
  by_contra hlt
  have hcount := countP_gt_of_sorted (List.pairwise_insertionSort (· ≤ ·) (List.ofFn f)) hx
    (not_le.mp hlt)
  have hlen : ((List.ofFn f).insertionSort (· ≤ ·)).length = n := by simp
  unfold Majority at h
  rw [Fintype.card_fin, card_reaching] at h
  omega

theorem median_mem : ∃ i, f i = x := by
  have hmem := (List.perm_insertionSort (· ≤ ·) (List.ofFn f)).mem_iff.mp (List.mem_of_getElem? hx)
  exact List.mem_ofFn.mp hmem

end Median

end DistributedLabs.MajorityQuorums
