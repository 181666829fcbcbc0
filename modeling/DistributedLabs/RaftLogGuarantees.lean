import DistributedLabs.RaftStateMachineSafety

/-!
# Logs, leaders and applied commands

Three guarantees about the logs of a cluster whose deliveries are sound. Two logs that have the same
term at an index are the same up to it. A command that was sent on `applyCh` once is held by a
majority from then on. And a leader has it if its term is not behind any term there was when the
command was sent. Compacted entries count: a server still holds what its snapshot stands for.
-/

namespace DistributedLabs.Raft1
open TransitionRuns MajorityQuorums TermLogs TermLeader

variable {n : ℕ} {C D : Type} {c c' : Cluster n C D}

/-- The server has the command at the index, in its log or behind its snapshot. -/
def Raft.Holds (rf : Raft n C D) (i : ℕ) (command : Option C) : Prop :=
  ∃ e, rf.entryAt i = some e ∧ e.command = command

section Refines
variable {s : TermLeader.State (Fin n) (Entry C)} {v w : Fin n} {i : ℕ} {command : Option C}

theorem Refines.entryAt_congr (h : Refines c s) {k : ℕ}
    (htake : (c.node v).rf.fullLog.take k = (c.node w).rf.fullLog.take k) (hi : i ≤ k) :
    (c.node v).rf.entryAt i = (c.node w).rf.entryAt i := by
  cases i with
  | zero => simp [Raft.entryAt]
  | succ j =>
    rw [(h.node v).window.entryAt_succ, (h.node w).window.entryAt_succ]
    have hentry := congrArg (·[j]?) htake
    simpa [List.getElem?_take, Nat.lt_of_succ_le hi] using hentry

theorem Refines.holds_of_take (h : Refines c s) {l : List (Entry C)} {e : Entry C} (hpos : 0 < i)
    (he : l[i - 1]? = some e) (hcommand : e.command = command) (htake : (s.log v).take i = l.take i) :
    (c.node v).rf.Holds i command := by
  obtain ⟨j, rfl⟩ : ∃ j, i = j + 1 := ⟨i - 1, by omega⟩
  refine ⟨e, ?_, hcommand⟩
  rw [(h.node v).window.entryAt_succ, ← (h.node v).log]
  have hentry := congrArg (·[j]?) htake
  simp only [List.getElem?_take, Nat.lt_succ_self, if_true] at hentry
  rw [hentry]
  exact he

end Refines

theorem Refines.exists_extends {s : TermLeader.State (Fin n) (Entry C)} (h : Refines c s)
    (helect : ElectionInv c) (hrun : Reaches Cluster.step SoundDelivery c c') :
    ∃ s', Refines c' s' ∧ Extends s s' := by
  have hkept : ∀ (c₁ : Cluster n C D) a c₂, (ElectionInv c₁ ∧ ∃ s', Refines c₁ s' ∧ Extends s s') →
      SoundDelivery c₁ a → c₁.step a = some c₂ → ElectionInv c₂ ∧ ∃ s', Refines c₂ s' ∧ Extends s s' := by
    rintro c₁ a c₂ ⟨helect, s₁, hr, hext⟩ hsound hs
    obtain ⟨s₂, hf, hr'⟩ := hr.step helect hsound hs
    exact ⟨helect.step hsound.voteKept hs, s₂, hr', hext.trans (hf.extends hr.inv)⟩
  exact (hrun.invariant ⟨helect, s, h, .refl s⟩ hkept).2

/-- Two logs that have the same term at an index are the same up to it. -/
theorem logs_match (h : Reaches Cluster.step SoundDelivery (Cluster.init n C D) c) {v w : Fin n} {i : ℕ}
    {e f : Entry C} (he : (c.node v).rf.entryAt i = some e) (hf : (c.node w).rf.entryAt i = some f)
    (hterm : e.term = f.term) : ∀ j ≤ i, (c.node v).rf.entryAt j = (c.node w).rf.entryAt j := by
  obtain ⟨-, s, hr⟩ := exists_refines h
  cases i with
  | zero => simp [Raft.entryAt] at he
  | succ k =>
    rw [(hr.node v).window.entryAt_succ, ← (hr.node v).log] at he
    rw [(hr.node w).window.entryAt_succ, ← (hr.node w).log] at hf
    have htake := (hr.inv.log_sourced v).matching (hr.inv.log_sourced w) k e f he hf hterm
    rw [(hr.node v).log, (hr.node w).log] at htake
    exact fun j hj => hr.entryAt_congr htake hj

theorem logs_match_two_entries : ∃ c : Cluster 3 ℕ ℕ,
    Reaches Cluster.step SoundDelivery (Cluster.init 3 ℕ ℕ) c ∧
      (c.node 0).rf.entryAt 2 = some ⟨1, some 8⟩ ∧ (c.node 1).rf.entryAt 2 = some ⟨1, some 8⟩ ∧
      (c.node 0).rf.entryAt 1 = (c.node 1).rf.entryAt 1 := by
  obtain ⟨c, hreach, h0, h1⟩ :=
    exists_reaches Cluster.step SoundDelivery (Cluster.init 3 ℕ ℕ)
      [.startElection 0, .deliver 0, .deliver 1, .start 0 (some 7), .start 0 (some 8), .broadcast 0 1,
        .deliver 1, .deliver 1]
      (fun c => (c.node 0).rf.entryAt 2 = some ⟨1, some 8⟩ ∧
        (c.node 1).rf.entryAt 2 = some ⟨1, some 8⟩) (by decide +kernel)
  exact ⟨c, hreach, h0, h1, logs_match hreach h0 h1 rfl 1 (by omega)⟩

/-- Whatever was sent on `applyCh` is held by a majority, now and in every later state. -/
theorem applied_held_by_majority (h : Reaches Cluster.step SoundDelivery (Cluster.init n C D) c)
    {v : Fin n} {command : Option C} {i : ℕ} {t : ℤ} (hv : (v, .command command i t) ∈ c.applied) :
    ∃ Q : Finset (Fin n), Majority Q ∧ ∀ u ∈ Q, (c.node u).rf.Holds i command := by
  obtain ⟨-, s, hr⟩ := exists_refines h
  obtain ⟨T, l, e, hl, hpos, he, hcommand⟩ := hr.applied _ hv
  rcases hl.committed with hzero | ⟨t, k, -, hk, hcommitted, htake⟩
  · omega
  obtain ⟨Q, hQ, hkeeps⟩ := hcommitted.kept hr.inv
  refine ⟨Q, hQ, fun u hu => hr.holds_of_take hpos he hcommand ?_⟩
  rw [htake]
  exact take_le_congr (hkeeps u hu).2 hk

theorem applied_held_by_two : ∃ c : Cluster 3 ℕ ℕ,
    Reaches Cluster.step SoundDelivery (Cluster.init 3 ℕ ℕ) c ∧
      (0, .command (some 7) 1 1) ∈ c.applied ∧ (c.node 2).rf.entryAt 1 = none ∧
      ∃ Q : Finset (Fin 3), Majority Q ∧ ∀ u ∈ Q, (c.node u).rf.Holds 1 (some 7) := by
  obtain ⟨c, hreach, happlied, hnone⟩ :=
    exists_reaches Cluster.step SoundDelivery (Cluster.init 3 ℕ ℕ)
      [.startElection 0, .deliver 0, .deliver 1, .start 0 (some 7), .broadcast 0 1, .deliver 1,
        .deliver 1, .pick 0, .send 0 0]
      (fun c => (0, .command (some 7) 1 1) ∈ c.applied ∧ (c.node 2).rf.entryAt 1 = none)
      (by decide +kernel)
  exact ⟨c, hreach, happlied, hnone, applied_held_by_majority hreach happlied⟩

/-- A leader of a term that is not behind the terms there were has what was sent on `applyCh`. -/
theorem later_leader_holds (h : Reaches Cluster.step SoundDelivery (Cluster.init n C D) c)
    (h' : Reaches Cluster.step SoundDelivery c c') {v w : Fin n} {command : Option C} {i : ℕ} {t : ℤ}
    (hv : (v, .command command i t) ∈ c.applied) (hlead : (c'.node w).rf.state = .leader)
    (hterm : ∀ u, (c.node u).rf.currentTerm ≤ (c'.node w).rf.currentTerm) :
    (c'.node w).rf.Holds i command := by
  obtain ⟨helect, s, hr⟩ := exists_refines h
  obtain ⟨s', hr', hext⟩ := hr.exists_extends helect h'
  obtain ⟨T, l, e, hl, hpos, he, hcommand⟩ := hr.applied _ hv
  rcases hl.committed with hzero | ⟨t, k, -, hk, hcommitted, htake⟩
  · omega
  obtain ⟨u, hu, -⟩ := hcommitted.le_length hr.inv
  have ht : t ≤ (c'.node w).rf.currentTerm := by
    have hle := (hr.inv.leader_term t u hu).1
    rw [(hr.node u).term] at hle
    exact hle.trans (hterm u)
  have hchosen : Chosen Entry.term s t i l := ⟨hl.reaches, .inr ⟨t, k, le_rfl, hk, hcommitted, htake⟩⟩
  obtain ⟨-, hlog⟩ := (hchosen.mono hr.inv hext).leaderLog hr'.inv ht ((hr'.node w).leads hlead)
  refine hr'.holds_of_take hpos he hcommand ?_
  rw [(hr'.node w).log, hlog, hr'.leaderLog_eq hlead]

/-- Server 1 leads term 2 with the command that server 0 has applied in term 1. -/
theorem later_leader_holds_second : ∃ c c' : Cluster 3 ℕ ℕ,
    Reaches Cluster.step SoundDelivery (Cluster.init 3 ℕ ℕ) c ∧ Reaches Cluster.step SoundDelivery c c' ∧
      (0, .command (some 7) 1 1) ∈ c.applied ∧ (c'.node 1).rf.state = .leader ∧
      (c'.node 1).rf.currentTerm = 2 ∧ (c'.node 1).rf.Holds 1 (some 7) := by
  obtain ⟨c, c', hreach, hreach', happlied, hlead, hterm, hterms⟩ :=
    exists_reaches_twice Cluster.step SoundDelivery (Cluster.init 3 ℕ ℕ)
      [.startElection 0, .deliver 0, .deliver 1, .start 0 (some 7), .broadcast 0 1, .deliver 1,
        .deliver 1, .pick 0, .send 0 0]
      [.startElection 1, .deliver 2, .deliver 2]
      (fun c c' => (0, .command (some 7) 1 1) ∈ c.applied ∧ (c'.node 1).rf.state = .leader ∧
        (c'.node 1).rf.currentTerm = 2 ∧
        ∀ u, (c.node u).rf.currentTerm ≤ (c'.node 1).rf.currentTerm) (by decide +kernel)
  exact ⟨c, c', hreach, hreach', happlied, hlead, hterm,
    later_leader_holds hreach hreach' happlied hlead hterms⟩

end DistributedLabs.Raft1
