import DistributedLabs.RaftLogTerms
import DistributedLabs.MajorityQuorums
import Mathlib.Data.Fin.VecNotation
import Mathlib.Order.Bounds.Basic

/-!
# The commit rule of `raft1`

`commit` looks at one order statistic of `matchIndex`. The rule it stands for asks for
the largest index that a majority has stored and that is of the leader's term. The
order statistic is the largest index that a majority has stored, and since terms
never decrease along the log, if any such index is of the leader's term then that
one is.
-/

namespace DistributedLabs.Raft1.Raft
open MajorityQuorums

variable {n : ℕ} {C D : Type} {rf : Raft n C D}

/-- An index that the leader may commit: new, stored by more than half of the servers, and of
the leader's term. -/
def Committable (rf : Raft n C D) (N : ℕ) : Prop :=
  rf.commitIndex < N ∧ n / 2 < (Finset.univ.filter fun p => N ≤ rf.matchIndex p).card ∧
    rf.getLogTerm N = rf.currentTerm

theorem majority_iff_half {Q : Finset (Fin n)} : Majority Q ↔ n / 2 < Q.card := by
  unfold Majority
  rw [Fintype.card_fin]
  omega

theorem exists_median (rf : Raft n C D) :
    ∃ target, ((List.ofFn rf.matchIndex).insertionSort (· ≤ ·))[(n - 1) / 2]? = some target := by
  have hpos : 0 < n := rf.me.pos
  have hlen : ((List.ofFn rf.matchIndex).insertionSort (· ≤ ·)).length = n := by simp
  exact ⟨_, List.getElem?_eq_getElem (by omega)⟩

section Leader
variable (hlogs : rf.logs ≠ []) (hmatch : ∀ p, rf.matchIndex p ≤ rf.getLastLogIndex)
  (hord : EntriesOrdered rf.logs) (hbounded : ∀ e ∈ rf.logs, e.term ≤ rf.currentTerm)
  (hcommit : rf.lastIncludedIndex ≤ rf.commitIndex)
include hlogs hmatch hord hbounded hcommit

theorem median_isGreatest {target N : ℕ}
    (htarget : ((List.ofFn rf.matchIndex).insertionSort (· ≤ ·))[(n - 1) / 2]? = some target)
    (hN : rf.Committable N) : IsGreatest { M | rf.Committable M } target := by
  have hupper : ∀ M, rf.Committable M → M ≤ target := fun M hM =>
    le_median_of_majority htarget (majority_iff_half.mpr hM.2.1)
  have hle := hupper N hN
  obtain ⟨p, hp⟩ := median_mem htarget
  have hlast : target ≤ rf.getLastLogIndex := hp ▸ hmatch p
  obtain ⟨hnew, -, hown⟩ := hN
  refine ⟨⟨hnew.trans_le hle, majority_iff_half.mp (majority_of_median htarget), ?_⟩, hupper⟩
  apply le_antisymm
  · obtain ⟨k, hk, -, hterm⟩ := slot_of_index hlogs (hcommit.trans (hnew.le.trans hle)) hlast
    rw [hterm, Int.ofNat_le]
    exact hbounded _ (List.getElem_mem hk)
  · rw [← hown]
    exact getLogTerm_le_getLogTerm hlogs hord (hcommit.trans hnew.le) hle hlast

/-- On a leader `commit` moves `commitIndex` to the largest index that may be committed, and does
nothing if there is none. -/
theorem commit_eq_rule (hlead : rf.state = .leader) :
    ((∃ M, rf.Committable M) →
      ∃ N, IsGreatest { M | rf.Committable M } N ∧ rf.commit = { rf with commitIndex := N }) ∧
    ((¬∃ M, rf.Committable M) → rf.commit = rf) := by
  constructor
  · rintro ⟨M, hM⟩
    obtain ⟨target, htarget⟩ := rf.exists_median
    have hgreatest := median_isGreatest hlogs hmatch hord hbounded hcommit htarget hM
    obtain ⟨hnew, -, hown⟩ := hgreatest.1
    exact ⟨target, hgreatest, by simp [commit, hlead, htarget, hnew, hown]⟩
  · intro hnone
    rcases rf.commit_cases with hsame | ⟨-, N, hmedian, hnew, hown, -⟩
    · exact hsame
    · exact absurd ⟨N, hnew, majority_iff_half.mp (majority_of_median hmedian), hown⟩ hnone

end Leader

/-- Four servers, of which three have index 4 and two have index 5: index 4 is committed. -/
theorem commit_eq_rule_four_servers :
    let rf : Raft 4 ℕ ℕ :=
      { make 0 (makePersister ℕ ℕ) with
        currentTerm := 2
        state := .leader
        logs := [⟨1, none⟩, ⟨1, some 7⟩, ⟨2, some 8⟩, ⟨2, some 9⟩]
        commitIndex := 2
        matchIndex := ![5, 4, 2, 5]
        lastIncludedIndex := 2
        lastIncludedTerm := 1 }
    IsGreatest { M | rf.Committable M } 4 ∧ rf.commit.commitIndex = 4 := by
  intro rf
  have hfour : rf.Committable 4 := by
    unfold Committable
    decide +kernel
  have hlogs : rf.logs ≠ [] := List.cons_ne_nil _ _
  have hord : EntriesOrdered rf.logs := by
    unfold EntriesOrdered
    decide
  obtain ⟨hmoves, -⟩ := commit_eq_rule hlogs (by decide) hord (by decide) (by decide) rfl
  obtain ⟨N, hgreatest, hcommit⟩ := hmoves ⟨4, hfour⟩
  have hN : rf.commit.commitIndex = N := by rw [hcommit]
  have hcomputed : rf.commit.commitIndex = 4 := by decide +kernel
  obtain rfl : N = 4 := hN.symm.trans hcomputed
  exact ⟨hgreatest, hcomputed⟩

end DistributedLabs.Raft1.Raft
