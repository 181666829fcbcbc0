import DistributedLabs.RaftApplyChannel
import DistributedLabs.RaftLogWindow

/-!
# What installing a snapshot costs a server

`InstallSnapshot` compares the snapshot with `commitIndex` only. An older
`AppendEntries` can lower `commitIndex`, so a snapshot behind `lastApplied` may
still be installed, and `matchLog` finds no match at or below the server's own
snapshot, so a log that continues an equal snapshot is discarded. Here is exactly
when handling a request loses nothing.
-/

namespace DistributedLabs.Raft1
open TransitionRuns

variable {n : ℕ} {C D : Type}

/-- The server has an entry at the snapshot's index with the snapshot's term. -/
def Raft.Agrees (rf : Raft n C D) (args : InstallSnapshotArgs n C D) : Prop :=
  ∃ e ∈ rf.entryAt args.lastIncludedIndex, e.term = args.lastIncludedTerm

instance (rf : Raft n C D) (args : InstallSnapshotArgs n C D) : Decidable (rf.Agrees args) :=
  inferInstanceAs (Decidable (∃ e ∈ rf.entryAt args.lastIncludedIndex, _))

/-- Nothing applied is lost, nor anything that follows an entry agreeing with the snapshot;
an entry is not lost when the new snapshot covers it. -/
structure KeepsGround (rf : Raft n C D) (args : InstallSnapshotArgs n C D) (rf' : Raft n C D) :
    Prop where
  lastIncludedIndex : rf.lastIncludedIndex ≤ rf'.lastIncludedIndex
  lastApplied : rf.lastApplied ≤ rf'.lastApplied
  entries : ∀ index e, rf.entryAt index = some e →
    index ≤ rf.lastApplied ∨ args.lastIncludedIndex < index ∧ rf.Agrees args →
    index ≤ rf'.lastIncludedIndex ∨ rf'.entryAt index = some e

/-- The request is refused or ignored, or it reaches beyond what the server applied, or
exactly as far without a log being discarded that continues the same snapshot. -/
def Harmless (rf : Raft n C D) (args : InstallSnapshotArgs n C D) : Prop :=
  args.term < rf.currentTerm ∨ args.lastIncludedIndex ≤ rf.commitIndex ∨
    rf.lastApplied < args.lastIncludedIndex ∨
    rf.lastApplied = args.lastIncludedIndex ∧
      (rf.lastIncludedIndex < args.lastIncludedIndex ∨ rf.logs.length ≤ 1 ∨ ¬rf.Agrees args)

theorem KeepsGround.refl (rf : Raft n C D) (args : InstallSnapshotArgs n C D) :
    KeepsGround rf args rf := ⟨le_rfl, le_rfl, fun _ _ he _ => Or.inr he⟩

theorem keepsGround_observe (rf : Raft n C D) (args : InstallSnapshotArgs n C D) (T : ℕ) :
    KeepsGround rf args (rf.observe T) := by
  rcases rf.observe_eq_or T with he | ⟨-, he⟩ <;> rw [he]
  · exact .refl rf args
  · exact ⟨le_rfl, le_rfl, fun _ _ he _ => Or.inr he⟩

theorem entryAt_install {rf : Raft n C D} {args : InstallSnapshotArgs n C D}
    (hahead : rf.lastIncludedIndex < args.lastIncludedIndex) (hagrees : rf.Agrees args)
    {index : ℕ} (hindex : args.lastIncludedIndex < index) :
    (rf.install args).entryAt index = rf.entryAt index := by
  obtain ⟨e₀, he₀, hterm⟩ := hagrees
  obtain ⟨k, hk⟩ := Nat.exists_eq_add_of_lt hahead
  obtain ⟨j, hj⟩ := Nat.exists_eq_add_of_lt hindex
  have hslot : rf.logs[k + 1]? = some e₀ := (Raft.entryAt_window hk).symm.trans he₀
  have hmatch : rf.matchLog args.lastIncludedIndex args.lastIncludedTerm := by
    have hlt := (List.getElem?_eq_some_iff.mp hslot).1
    have hin : ¬(args.lastIncludedIndex ≤ rf.getFirstLogIndex ∨
        args.lastIncludedIndex > rf.getLastLogIndex) := by
      unfold Raft.getFirstLogIndex Raft.getLastLogIndex
      omega
    have hget : rf.getLogTerm args.lastIncludedIndex = args.lastIncludedTerm := by
      rw [hk, Nat.add_assoc, rf.getLogTerm_add, Raft.slotTerm, hslot, ← hterm]
    rw [Raft.matchLog, if_neg hin, hget]
    exact decide_eq_true rfl
  have hlogs : (rf.install args).logs =
      (rf.logs.drop (args.lastIncludedIndex - rf.lastIncludedIndex)).modify 0
        fun head => { head with command := none } := if_pos hmatch
  have hnew : (rf.install args).entryAt index = (rf.install args).logs[j + 1]? :=
    Raft.entryAt_window hj
  have hold : rf.entryAt index =
      rf.logs[args.lastIncludedIndex - rf.lastIncludedIndex + (j + 1)]? :=
    Raft.entryAt_window (k := args.lastIncludedIndex - rf.lastIncludedIndex + j) (by omega)
  rw [hnew, hlogs, hold]
  simp

/-- At or below the server's own snapshot `matchLog` finds nothing, and the window becomes
the head alone. -/
theorem windowBehind_of_le {rf : Raft n C D} {args : InstallSnapshotArgs n C D}
    (h : args.lastIncludedIndex ≤ rf.lastIncludedIndex) :
    rf.windowBehind args = [⟨args.lastIncludedTerm, none⟩] := by
  have hmatch : rf.matchLog args.lastIncludedIndex args.lastIncludedTerm = false :=
    if_pos (Or.inl h)
  simp [Raft.windowBehind, hmatch]

theorem keepsGround_iff {rf : Raft n C D} (hreached : rf.lastIncludedIndex ≤ rf.lastApplied)
    (args : InstallSnapshotArgs n C D) :
    KeepsGround rf args (rf.installSnapshot args).1 ↔ Harmless rf args := by
  rcases rf.installSnapshot_cases args with ⟨hlt, he⟩ | ⟨-, hcov, he⟩ | ⟨hle, hnew, he⟩ <;> rw [he]
  · exact iff_of_true (.refl rf args) (Or.inl hlt)
  · exact iff_of_true (keepsGround_observe rf args args.term) (Or.inr (Or.inl hcov))
  simp only [Harmless, hle.not_gt, hnew.not_ge, false_or]
  constructor
  · intro h
    have happlied : rf.lastApplied ≤ args.lastIncludedIndex := h.lastApplied
    refine happlied.lt_or_eq.imp_right fun heq => ⟨heq, ?_⟩
    by_contra hbad
    simp only [not_or, not_lt, not_le, not_not] at hbad
    obtain ⟨hlow, hlong, hagrees⟩ := hbad
    have hsame : rf.lastIncludedIndex = args.lastIncludedIndex := by omega
    obtain ⟨e, hget⟩ : ∃ e, rf.logs[1]? = some e := ⟨_, List.getElem?_eq_getElem hlong⟩
    have hentry : rf.entryAt (args.lastIncludedIndex + 1) = some e := by
      rw [Raft.entryAt_window (by rw [hsame]), hget]
    rcases h.entries _ e hentry (Or.inr ⟨Nat.lt_succ_self _, hagrees⟩) with hcov | hkept
    · exact absurd hcov (Nat.not_succ_le_self _)
    · have hwindow : (rf.install args).entryAt (args.lastIncludedIndex + 1) =
          (rf.windowBehind args)[1]? := Raft.entryAt_window rfl
      rw [hwindow, windowBehind_of_le hlow] at hkept
      simp at hkept
  · intro h
    have happlied : rf.lastApplied ≤ args.lastIncludedIndex := by
      rcases h with h | h
      · exact h.le
      · exact h.1.le
    refine ⟨hreached.trans happlied, happlied, fun index e hentry hindex => ?_⟩
    rcases hindex with hindex | ⟨hindex, hagrees⟩
    · exact Or.inl (hindex.trans happlied)
    · right
      rcases lt_or_ge rf.lastIncludedIndex args.lastIncludedIndex with hahead | hbehind
      · exact (entryAt_install hahead hagrees hindex).trans hentry
      · rcases h with h | ⟨heq, h | h | h⟩
        · omega
        · omega
        · obtain ⟨k, hk⟩ := Nat.exists_eq_add_of_lt (hreached.trans_lt (heq.trans_lt hindex))
          rw [Raft.entryAt_window hk, List.getElem?_eq_none_iff.mpr (by omega)] at hentry
          cases hentry
        · exact absurd hagrees h

theorem lastIncludedIndex_le_lastApplied {c : Cluster n C D}
    (h : Reaches Cluster.step anyStep (Cluster.init n C D) c) (i : Fin n) :
    (c.node i).rf.lastIncludedIndex ≤ (c.node i).rf.lastApplied := by
  refine server_invariant (P := fun nd => nd.rf.lastIncludedIndex ≤ nd.rf.lastApplied) h
    (fun i => le_rfl) (fun c i nd hd hc hs => ?_) i
  cases hs with
  | steady _ _ _ lastApplied lastIncludedIndex =>
    rw [lastApplied, lastIncludedIndex]
    exact hc
  | install args => exact le_rfl
  | pick => exact hc.trans (Nat.le_succ _)
  | send => exact hc
  | snapshot index bytes =>
    rcases (c.node i).rf.snapshot_cases index bytes with
      ⟨-, he⟩ | ⟨-, e, -, he⟩ | ⟨-, -, he⟩ <;> simp only [he]
    · exact hc
    all_goals exact le_max_right _ _
  | restart =>
    have hmake := Raft.make_of_durable hd
    change (Raft.make _ _).lastIncludedIndex ≤ (Raft.make _ _).lastApplied
    rw [hmake]

/-- In every reachable state, handling a request keeps the server's ground exactly when the
request is harmless to it. -/
theorem installSnapshot_keepsGround_iff (c : Cluster n C D)
    (h : Reaches Cluster.step anyStep (Cluster.init n C D) c) (i : Fin n)
    (args : InstallSnapshotArgs n C D) :
    KeepsGround (c.node i).rf args ((c.node i).rf.installSnapshot args).1 ↔
      Harmless (c.node i).rf args :=
  keepsGround_iff (lastIncludedIndex_le_lastApplied h i) args

/-- A follower that has picked the first command is sent the leader's snapshot up to the
second. -/
theorem installSnapshot_keepsGround_iff_ahead :
    ∃ (c : Cluster 3 ℕ ℕ) (args : InstallSnapshotArgs 3 ℕ ℕ),
      Reaches Cluster.step anyStep (Cluster.init 3 ℕ ℕ) c ∧
      (⟨0, 1, 0, .installSnapshot args⟩ : Packet 3 ℕ ℕ) ∈ c.net ∧
      (c.node 1).rf.lastApplied = 1 ∧ args.lastIncludedIndex = 2 ∧
      KeepsGround (c.node 1).rf args ((c.node 1).rf.installSnapshot args).1 := by
  obtain ⟨c, hreach, hnet, happlied⟩ :=
    exists_reaches Cluster.step anyStep (Cluster.init 3 ℕ ℕ)
      [.startElection 0, .deliver 0, .deliver 1, .drop 0, .start 0 (some 7), .broadcast 0 1,
        .deliver 0, .deliver 0, .broadcast 0 1, .deliver 0, .drop 0, .pick 1, .start 0 (some 8),
        .broadcast 0 2, .deliver 0, .deliver 0, .pick 0, .send 0 0, .pick 0, .send 0 0,
        .snapshot 0 2 none, .broadcast 0 1]
      (fun c => (⟨0, 1, 0, .installSnapshot
          ⟨1, 0, 2, 1, ⟨none, [⟨1, some 7⟩, ⟨1, some 8⟩]⟩⟩⟩ : Packet 3 ℕ ℕ) ∈ c.net ∧
        (c.node 1).rf.lastApplied = 1) (by decide +kernel)
  refine ⟨c, _, hreach, hnet, happlied, rfl, (installSnapshot_keepsGround_iff c hreach 1 _).mpr ?_⟩
  exact Or.inr (Or.inr (Or.inl (by rw [happlied]; exact Nat.one_lt_two)))

/-- Server 1 has applied two commands when a delayed `AppendEntries` takes its `commitIndex`
back to 0; the snapshot up to index 1 that is in flight then takes `lastApplied` back to 1. -/
theorem snapshot_takes_back_applied :
    ∃ (c : Cluster 3 ℕ ℕ) (args : InstallSnapshotArgs 3 ℕ ℕ),
      Reaches Cluster.step anyStep (Cluster.init 3 ℕ ℕ) c ∧
      (⟨0, 1, 0, .installSnapshot args⟩ : Packet 3 ℕ ℕ) ∈ c.net ∧
      ¬KeepsGround (c.node 1).rf args ((c.node 1).rf.installSnapshot args).1 ∧
      (c.node 1).rf.lastApplied = 2 ∧ ((c.node 1).rf.installSnapshot args).1.lastApplied = 1 := by
  obtain ⟨c, hreach, hnet, hbefore, hafter⟩ :=
    exists_reaches Cluster.step anyStep (Cluster.init 3 ℕ ℕ)
      [.startElection 0, .deliver 0, .deliver 1, .drop 0, .broadcast 0 1, .start 0 (some 7),
        .start 0 (some 8), .broadcast 0 2, .deliver 1, .deliver 1, .broadcast 0 1, .deliver 1,
        .drop 1, .pick 1, .send 1 0, .pick 1, .send 1 0, .pick 0, .send 0 0, .snapshot 0 1 none,
        .broadcast 0 1, .deliver 0]
      (fun c => (⟨0, 1, 0, .installSnapshot ⟨1, 0, 1, 1, ⟨none, [⟨1, some 7⟩]⟩⟩⟩ : Packet 3 ℕ ℕ) ∈
          c.net ∧ (c.node 1).rf.lastApplied = 2 ∧ ((c.node 1).rf.installSnapshot
            ⟨1, 0, 1, 1, ⟨none, [⟨1, some 7⟩]⟩⟩).1.lastApplied = 1) (by decide +kernel)
  refine ⟨c, _, hreach, hnet, fun h => ?_, hbefore, hafter⟩
  have happlied := h.lastApplied
  omega

end DistributedLabs.Raft1
