import DistributedLabs.RaftSteps

/-!
# `commitIndex` and `lastApplied` along a run of `raft1`

In every run the two positions stay inside the log window. They need not stay in
order: an accepted `AppendEntries` sets `commitIndex` to what the request says, so a
request that was overtaken by a later one takes it back. It only moves forward while
no accepted request says less than the server knows.
-/

namespace DistributedLabs.Raft1
open TransitionRuns TermLogs

variable {n : ℕ} {C D : Type} {c c' : Cluster n C D} {a : Action n C D}

/-- Nothing behind the snapshot is still to be applied, nothing behind the log is committed. -/
structure Raft.Positioned (rf : Raft n C D) : Prop where
  applied : rf.lastIncludedIndex ≤ rf.lastApplied
  committed : rf.commitIndex ≤ rf.getLastLogIndex

namespace Raft
variable {rf : Raft n C D}

theorem lastIncludedIndex_le_getLastLogIndex (h : rf.logs ≠ []) :
    rf.lastIncludedIndex ≤ rf.getLastLogIndex := by
  have hpos := List.length_pos_iff.mpr h
  unfold getLastLogIndex
  omega

/-- `getLogTerm` finds a term at no index behind the log. -/
theorem le_getLastLogIndex_of_getLogTerm {i : ℕ} (h : 0 ≤ rf.getLogTerm i) :
    i ≤ rf.getLastLogIndex := by
  by_contra hlt
  have hout : rf.lastIncludedIndex ≤ i := by
    unfold getLastLogIndex at hlt
    omega
  obtain ⟨k, rfl⟩ := Nat.exists_eq_add_of_le hout
  have hnone : rf.logs[k]? = none := List.getElem?_eq_none_iff.mpr (by
    unfold getLastLogIndex at hlt
    omega)
  simp [getLogTerm_add, slotTerm, hnone] at h

theorem le_getLastLogIndex_accept (hlogs : rf.logs ≠ []) {args : AppendEntriesArgs n C}
    (hfirst : rf.lastIncludedIndex ≤ args.prevLogIndex)
    (hlast : args.prevLogIndex ≤ rf.getLastLogIndex) :
    args.prevLogIndex + args.entries.length ≤ (rf.accept args).getLastLogIndex := by
  have hpos := List.length_pos_iff.mpr hlogs
  have hslot : args.prevLogIndex + 1 - rf.lastIncludedIndex ≤ rf.logs.length := by
    unfold getLastLogIndex at hlast
    omega
  have hlen := length_mergeAt Entry.term args.entries hslot
  have hafter : (rf.accept args).getLastLogIndex = rf.lastIncludedIndex +
      (mergeAt Entry.term rf.logs (args.prevLogIndex + 1 - rf.lastIncludedIndex)
        args.entries).length - 1 := rfl
  omega

theorem followCommit_commitIndex (args : AppendEntriesArgs n C) : (rf.followCommit args).commitIndex =
    min args.leaderCommit (args.prevLogIndex + args.entries.length) := by
  unfold followCommit
  dsimp only
  split_ifs <;> omega

theorem accept_commitIndex (args : AppendEntriesArgs n C) : (rf.accept args).commitIndex =
    min args.leaderCommit (args.prevLogIndex + args.entries.length) := followCommit_commitIndex args

end Raft

theorem Raft.Positioned.change {i : Fin n} {rf : Raft n C D} (hd : (c.node i).rf.Durable)
    (h : (c.node i).rf.Positioned) (hc : Change c i a rf) : rf.Positioned := by
  have hpos := List.length_pos_iff.mpr hd.logs_ne
  have hends := Raft.lastIncludedIndex_le_getLastLogIndex hd.logs_ne
  cases hc with
  | still _ window _ commitIndex lastApplied =>
    have happlied := h.applied
    have hcommitted := h.committed
    unfold Raft.getLastLogIndex at hcommitted
    constructor
    · rw [window.lastIncludedIndex, lastApplied]
      exact happlied
    · rw [Raft.getLastLogIndex, window.lastIncludedIndex, window.logs, commitIndex]
      exact hcommitted
  | commit _ window _ _ own lastApplied =>
    have hcommitted := Raft.le_getLastLogIndex_of_getLogTerm (own ▸ Int.natCast_nonneg _)
    unfold Raft.getLastLogIndex at hcommitted
    constructor
    · rw [window.lastIncludedIndex, lastApplied]
      exact h.applied
    · rw [Raft.getLastLogIndex, window.lastIncludedIndex, window.logs]
      exact hcommitted
  | apply => exact ⟨h.applied.trans (Nat.le_succ _), h.committed⟩
  | append command =>
    have hcommitted := h.committed
    refine ⟨h.applied, hcommitted.trans ?_⟩
    simp only [Raft.getLastLogIndex, Raft.appendOwn, Raft.persist_logs, Raft.persist_lastIncludedIndex,
      List.length_append, List.length_singleton]
    omega
  | accept _ _ _ _ _ first last =>
    refine ⟨h.applied, ?_⟩
    rw [Raft.accept_commitIndex]
    exact (min_le_right _ _).trans (Raft.le_getLastLogIndex_accept hd.logs_ne first last)
  | install => exact ⟨le_rfl, Raft.lastIncludedIndex_le_getLastLogIndex (hd.install _).logs_ne⟩
  | @trim index e bytes ahead slot =>
    have hlt := (List.getElem?_eq_some_iff.mp slot).1
    have hcommitted := h.committed
    refine ⟨le_max_right _ _, ?_⟩
    simp only [Raft.getLastLogIndex, Raft.trim, Raft.save, List.length_cons, List.length_drop]
    unfold Raft.getLastLogIndex at hcommitted
    omega
  | @reset index bytes ahead short =>
    have hcommitted := h.committed
    refine ⟨le_max_right _ _, ?_⟩
    simp only [Raft.getLastLogIndex, Raft.trim, Raft.save, List.length_singleton]
    unfold Raft.getLastLogIndex at hcommitted
    omega
  | restart => exact ⟨le_rfl, hends⟩

theorem positioned_of_reaches {guard : Cluster n C D → Action n C D → Prop}
    (h : Reaches Cluster.step guard (Cluster.init n C D) c) (i : Fin n) :
    (c.node i).rf.Positioned :=
  durable_invariant (P := fun c => (c.node i).rf.Positioned) h durable_init ⟨le_rfl, le_rfl⟩
    fun _ _ _ hd hc _ hs => hc.change (hd i).1 (.of_step hd hs i)

/-- No accepted `AppendEntries` says less than the server knows: neither its `LeaderCommit` nor the
end of its entries is behind `commitIndex`. -/
def CommitForward (c : Cluster n C D) : Action n C D → Prop
  | .deliver k => ∀ p ∈ c.net[k]?, ∀ args ∈ p.body.appendArgs,
      (c.node p.callee).rf.currentTerm ≤ args.term → (c.node p.callee).rf.Accepts args →
        (c.node p.callee).rf.commitIndex ≤ args.leaderCommit ∧
          (c.node p.callee).rf.commitIndex ≤ args.prevLogIndex + args.entries.length
  | _ => True

instance (c : Cluster n C D) (a : Action n C D) : Decidable (CommitForward c a) :=
  match a with
  | .deliver k => inferInstanceAs (Decidable (∀ p ∈ c.net[k]?, _))
  | .startElection _ | .start _ _ | .broadcast _ _ | .drop _ | .pick _ | .send _ _
  | .snapshot _ _ _ | .restart _ => .isTrue trivial

theorem Rpc.appendArgs_eq_some {body : Rpc n C D} {args : AppendEntriesArgs n C} :
    body.appendArgs = some args ↔ body = .appendEntries args := by
  cases body <;> simp [appendArgs]

theorem CommitForward.accept {k : ℕ} {p : Packet n C D} {args : AppendEntriesArgs n C}
    (hforward : CommitForward c (.deliver k)) (hp : c.net[k]? = some p)
    (hbody : p.body = .appendEntries args) (hterm : (c.node p.callee).rf.currentTerm ≤ args.term)
    (haccepts : (c.node p.callee).rf.Accepts args) :
    (c.node p.callee).rf.commitIndex ≤ ((c.node p.callee).rf.accept args).commitIndex := by
  rw [Raft.accept_commitIndex, le_min_iff]
  exact hforward p hp args (Rpc.appendArgs_eq_some.mpr hbody) hterm haccepts

theorem CommitForward.change {i : Fin n} {rf : Raft n C D} (hforward : CommitForward c a)
    (hc : Change c i a rf) (ha : a ≠ .restart i) : (c.node i).rf.commitIndex ≤ rf.commitIndex := by
  cases hc with
  | still _ _ _ commitIndex => exact commitIndex.ge
  | commit _ _ _ forward => exact forward.le
  | apply => exact le_rfl
  | append => exact le_rfl
  | accept hdel hp hi hbody term first last prev =>
    subst hdel hi
    exact hforward.accept hp hbody term ⟨first, last, prev⟩
  | install _ _ _ _ _ ahead => exact ahead.le
  | trim => exact le_max_left _ _
  | reset => exact le_max_left _ _
  | restart hrestart => exact absurd hrestart ha

theorem CommitForward.applied_change {i : Fin n} {rf : Raft n C D} (hforward : CommitForward c a)
    (h : (c.node i).rf.lastApplied ≤ (c.node i).rf.commitIndex) (hc : Change c i a rf) :
    rf.lastApplied ≤ rf.commitIndex := by
  cases hc with
  | still _ _ _ commitIndex lastApplied => rwa [commitIndex, lastApplied]
  | commit _ _ _ forward _ lastApplied => exact lastApplied ▸ h.trans forward.le
  | apply behind => exact behind
  | append => exact h
  | accept hdel hp hi hbody term first last prev =>
    subst hdel hi
    exact h.trans (hforward.accept hp hbody term ⟨first, last, prev⟩)
  | install => exact le_rfl
  | trim => exact max_le_max h le_rfl
  | reset => exact max_le_max h le_rfl
  | restart => exact le_rfl

/-- A step that takes no server's `commitIndex` back meets the condition. -/
theorem commitForward_of_forward (hd : ∀ i, (c.node i).rf.Durable ∧ (c.node i).rf.me = i)
    (hs : c.step a = some c')
    (h : ∀ i, a ≠ .restart i → (c.node i).rf.commitIndex ≤ (c'.node i).rf.commitIndex) :
    CommitForward c a := by
  cases a with
  | deliver k =>
    intro p hp args hargs hterm haccepts
    obtain ⟨q, hq, rfl⟩ := Option.map_eq_some_iff.mp hs
    obtain rfl := Option.some_injective _ (hq.symm.trans hp)
    have hbody := Rpc.appendArgs_eq_some.mp hargs
    have hup := h q.callee (by simp)
    have hafter : ((c.deliver q (c.net.eraseIdx k)).node q.callee).rf =
        (c.node q.callee).rf.accept args := by
      simp only [Cluster.deliver, hbody, Cluster.setRf, Cluster.setNode, Function.update_self]
      rw [Raft.appendEntries_of_accepts _ (hd _).1.logs_ne hterm haccepts]
    rw [hafter, Raft.accept_commitIndex] at hup
    exact le_min_iff.mp hup
  | startElection | start | broadcast | drop | pick | send | snapshot | restart => trivial

/-- In a run in which no accepted request says less than its receiver knows, nothing is applied
before it is committed; and the steps that keep the run so are just those that take back the
`commitIndex` of no server but a restarted one. -/
theorem commitIndex_forward (c : Cluster n C D)
    (h : Reaches Cluster.step CommitForward (Cluster.init n C D) c) :
    (∀ i, (c.node i).rf.lastApplied ≤ (c.node i).rf.commitIndex) ∧
    ∀ a c', c.step a = some c' →
      (CommitForward c a ↔
        ∀ i, a ≠ .restart i → (c.node i).rf.commitIndex ≤ (c'.node i).rf.commitIndex) := by
  have hd := durable_of_reaches h
  constructor
  · intro i
    exact durable_invariant (P := fun c => (c.node i).rf.lastApplied ≤ (c.node i).rf.commitIndex) h
      durable_init le_rfl fun _ _ _ hd hc hforward hs =>
        hforward.applied_change hc (.of_step hd hs i)
  · intro a c' hs
    constructor
    · intro hforward i ha
      exact hforward.change (.of_step hd hs i) ha
    · exact commitForward_of_forward hd hs

/-- Server 1 gets the entry, hears that it is committed and applies it. -/
theorem commitIndex_forward_applied : ∃ c : Cluster 3 ℕ ℕ,
    Reaches Cluster.step CommitForward (Cluster.init 3 ℕ ℕ) c ∧
      (c.node 1).rf.lastApplied = 1 ∧ (c.node 1).rf.lastApplied ≤ (c.node 1).rf.commitIndex := by
  obtain ⟨c, hreach, happlied⟩ := exists_reaches Cluster.step CommitForward (Cluster.init 3 ℕ ℕ)
    [.startElection 0, .deliver 0, .deliver 1, .start 0 (some 7), .drop 0, .broadcast 0 1, .deliver 0,
      .deliver 0, .broadcast 0 1, .deliver 0, .pick 1]
    (fun c => (c.node 1).rf.lastApplied = 1) (by decide +kernel)
  exact ⟨c, hreach, happlied, (commitIndex_forward c hreach).1 1⟩

/-- The leader sends the entry twice. The first copy is answered, the leader commits, and server 1
hears of it and applies the entry; then the second copy arrives. -/
theorem commitIndex_taken_back : ∃ c c' : Cluster 3 ℕ ℕ,
    Reaches Cluster.step anyStep (Cluster.init 3 ℕ ℕ) c ∧ c.step (.deliver 0) = some c' ∧
      (c.node 1).rf.commitIndex = 1 ∧ (c'.node 1).rf.commitIndex = 0 ∧
      (c'.node 1).rf.lastApplied = 1 := by
  obtain ⟨c, hreach, c', hstep, hbefore, hafter, happlied⟩ :=
    exists_reaches Cluster.step anyStep (Cluster.init 3 ℕ ℕ)
      [.startElection 0, .deliver 0, .deliver 1, .start 0 (some 7), .drop 0, .broadcast 0 1,
        .broadcast 0 1, .deliver 0, .deliver 1, .broadcast 0 1, .deliver 1, .pick 1]
      (fun c => ∃ c' ∈ c.step (.deliver 0), (c.node 1).rf.commitIndex = 1 ∧
        (c'.node 1).rf.commitIndex = 0 ∧ (c'.node 1).rf.lastApplied = 1) (by decide +kernel)
  exact ⟨c, c', hreach, hstep, hbefore, hafter, happlied⟩

end DistributedLabs.Raft1
