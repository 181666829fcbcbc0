import DistributedLabs.RaftLeaderIndexes

/-!
# Bringing a follower of `raft1` up to date

A leader and a follower of one term exchange requests and replies, and nothing else
happens. The leader backs up until the follower has the entry before its request, or
until it has to send its snapshot, and then goes forward to the end of its log. There is
one way to get stuck: the follower's snapshot reaches behind the entry that the request
starts with. The follower then names the first index of its window, which is no step
back for the leader, and the same request follows.
-/

namespace DistributedLabs.Raft1
open TransitionRuns TermLogs TermLeader

variable {n : ℕ} {C D : Type} {c c' : Cluster n C D}

/-- One exchange as the two servers see it: the request, its handler, and the reply's. -/
def Raft.exchange (l f : Raft n C D) (server : Fin n) : Option (Raft n C D × Raft n C D) :=
  (l.broadcastTo server).map fun r => match r.2 with
    | .appendEntries args =>
      (r.1.handleAppendEntriesReply server args (f.appendEntries args).2, (f.appendEntries args).1)
    | .installSnapshot args =>
      (r.1.handleInstallSnapshotReply server args ⟨0⟩, (f.installSnapshot args).1)

/-- One exchange in the cluster; no other packet is delivered. -/
def Cluster.exchange (leader follower : Fin n) (c : Cluster n C D) : Option (Cluster n C D) :=
  (c.step (.broadcast leader follower)).bind fun asked =>
  (asked.step (.deliver c.net.length)).bind fun handled =>
  -- a handler that installs a snapshot answers after its send on `applyCh`
  (if handled.net.length = c.net.length then
      handled.step (.send follower (c.node follower).sending.length)
    else some handled).bind fun answered =>
  answered.step (.deliver c.net.length)

section Exchange
variable {leader follower : Fin n} {net : List (Packet n C D)} {incarnation : ℕ}

theorem Cluster.step_deliver_last {p : Packet n C D} (hnet : c.net = net ++ [p]) :
    c.step (.deliver net.length) = some (c.deliver p net) := by
  simp [Cluster.step, hnet, List.eraseIdx_append_of_length_le]

theorem Cluster.step_send_last {i : Fin n} {before : List (Sending n C D)} {x : Sending n C D}
    (h : (c.node i).sending = before ++ [x]) :
    c.step (.send i before.length) = some
      { c.setNode i
          { c.node i with sending := before, received := (c.node i).received ++ [x.msg] } with
        net := c.net ++ (x.call.map (·.reply i)).toList
        applied := (i, x.msg) :: c.applied } := by
  simp [Cluster.step, h, List.eraseIdx_append_of_length_le]

theorem Cluster.exists_asked {r : Raft n C D × Raft.Request n C D}
    (hlead : (c.node leader).rf.state = .leader) (hne : follower ≠ leader)
    (hr : (c.node leader).rf.broadcastTo follower = some r) :
    ∃ c', c.step (.broadcast leader follower) = some c' ∧
      c'.net = c.net ++ [⟨leader, follower, (c.node leader).incarnation, .ofRequest r.2⟩] ∧
      (c'.node leader).incarnation = (c.node leader).incarnation ∧ (c'.node leader).rf = r.1 ∧
      c'.node follower = c.node follower := by
  refine ⟨{ c.setRf leader r.1 with
    net := c.net ++ [⟨leader, follower, (c.node leader).incarnation, .ofRequest r.2⟩] }, ?_, rfl, ?_⟩
  · simp only [Cluster.step, hlead, hne, ne_eq, not_false_eq_true, and_self, if_true, hr,
      Option.map_some]
    rfl
  · simp [Cluster.setRf, Cluster.setNode, hne]

theorem Cluster.exists_appended {args : AppendEntriesArgs n C} (hne : follower ≠ leader)
    (hnet : c.net = net ++ [⟨leader, follower, incarnation, .appendEntries args⟩]) :
    ∃ c', c.step (.deliver net.length) = some c' ∧
      c'.net = net ++ [⟨leader, follower, incarnation,
        .appendEntriesReply args ((c.node follower).rf.appendEntries args).2⟩] ∧
      c'.node leader = c.node leader ∧
      (c'.node follower).rf = ((c.node follower).rf.appendEntries args).1 := by
  refine ⟨_, Cluster.step_deliver_last hnet, rfl, ?_⟩
  simp [Cluster.deliver, Cluster.setRf, Cluster.setNode, hne.symm]

/-- A snapshot is handled, and answered at once or after the send on `applyCh`. -/
theorem Cluster.exists_installed {args : InstallSnapshotArgs n C D} (hne : follower ≠ leader)
    (hnet : c.net = net ++ [⟨leader, follower, incarnation, .installSnapshot args⟩]) :
    ∃ c₁ c', c.step (.deliver net.length) = some c₁ ∧
      (if c₁.net.length = net.length then c₁.step (.send follower (c.node follower).sending.length)
        else some c₁) = some c' ∧
      c'.net = net ++ [⟨leader, follower, incarnation, .installSnapshotReply args ⟨0⟩⟩] ∧
      c'.node leader = c.node leader ∧
      (c'.node follower).rf = ((c.node follower).rf.installSnapshot args).1 := by
  have hdeliver := Cluster.step_deliver_last hnet
  simp only [Cluster.deliver] at hdeliver
  cases hmsg : ((c.node follower).rf.installSnapshot args).2 with
  | none =>
    simp only [hmsg] at hdeliver
    refine ⟨_, _, hdeliver, if_neg (by simp), rfl, ?_⟩
    simp [Cluster.setRf, Cluster.setNode, hne.symm]
  | some msg =>
    simp only [hmsg] at hdeliver
    obtain ⟨c₁, hstep, hnet₁, hother, hrf, hsending⟩ : ∃ c₁, c.step (.deliver net.length) = some c₁ ∧
        c₁.net = net ∧ c₁.node leader = c.node leader ∧
        (c₁.node follower).rf = ((c.node follower).rf.installSnapshot args).1 ∧
        (c₁.node follower).sending =
          (c.node follower).sending ++ [⟨msg, some ⟨leader, incarnation, args⟩⟩] :=
      ⟨_, hdeliver, rfl, by simp [Cluster.setNode, hne.symm]⟩
    refine ⟨c₁, _, hstep, (if_pos (by rw [hnet₁])).trans (Cluster.step_send_last hsending), ?_⟩
    simp [Cluster.setNode, hne.symm, SnapshotCall.reply, hnet₁, hother, hrf]

theorem Cluster.exists_replied {args : AppendEntriesArgs n C} {reply : AppendEntriesReply}
    (hne : follower ≠ leader) (halive : (c.node leader).incarnation = incarnation)
    (hnet : c.net = net ++ [⟨leader, follower, incarnation, .appendEntriesReply args reply⟩]) :
    ∃ c', c.step (.deliver net.length) = some c' ∧
      (c'.node leader).rf = (c.node leader).rf.handleAppendEntriesReply follower args reply ∧
      c'.node follower = c.node follower := by
  refine ⟨_, Cluster.step_deliver_last hnet, ?_⟩
  simp [Cluster.deliver, halive, Cluster.setRf, Cluster.setNode, hne]

theorem Cluster.exists_snapshotReplied {args : InstallSnapshotArgs n C D}
    {reply : InstallSnapshotReply} (hne : follower ≠ leader)
    (halive : (c.node leader).incarnation = incarnation)
    (hnet : c.net = net ++ [⟨leader, follower, incarnation, .installSnapshotReply args reply⟩]) :
    ∃ c', c.step (.deliver net.length) = some c' ∧
      (c'.node leader).rf = (c.node leader).rf.handleInstallSnapshotReply follower args reply ∧
      c'.node follower = c.node follower := by
  refine ⟨_, Cluster.step_deliver_last hnet, ?_⟩
  simp [Cluster.deliver, halive, Cluster.setRf, Cluster.setNode, hne]

theorem Cluster.exchange_eq (hlead : (c.node leader).rf.state = .leader) (hne : follower ≠ leader)
    {l f : Raft n C D}
    (h : (c.node leader).rf.exchange (c.node follower).rf follower = some (l, f)) :
    ∃ c', c.exchange leader follower = some c' ∧ (c'.node leader).rf = l ∧
      (c'.node follower).rf = f := by
  obtain ⟨r, hr, he⟩ := Option.map_eq_some_iff.mp h
  obtain ⟨c₁, hasked, hnet₁, hinc₁, hrf₁, hother₁⟩ := Cluster.exists_asked hlead hne hr
  unfold Cluster.exchange
  rw [hasked, Option.bind_some]
  cases hreq : r.2 with
  | appendEntries args =>
    rw [hreq] at he hnet₁
    obtain ⟨c₂, hhandled, hnet₂, hother₂, hrf₂⟩ := Cluster.exists_appended hne hnet₁
    obtain ⟨c₃, hreplied, hrf₃, hother₃⟩ :=
      Cluster.exists_replied hne ((congrArg Node.incarnation hother₂).trans hinc₁) hnet₂
    have hlong : ¬c₂.net.length = c.net.length := by simp [hnet₂]
    rw [hhandled, Option.bind_some, if_neg hlong, Option.bind_some, hreplied]
    refine ⟨c₃, rfl, ?_⟩
    rw [hrf₃, hother₂, hrf₁, hother₃, hrf₂, hother₁]
    cases he
    exact ⟨rfl, rfl⟩
  | installSnapshot args =>
    rw [hreq] at he hnet₁
    obtain ⟨c₂, c₃, hhandled, hanswered, hnet₃, hother₃, hrf₃⟩ := Cluster.exists_installed hne hnet₁
    obtain ⟨c₄, hreplied, hrf₄, hother₄⟩ :=
      Cluster.exists_snapshotReplied hne ((congrArg Node.incarnation hother₃).trans hinc₁) hnet₃
    rw [hother₁] at hanswered
    rw [hhandled, Option.bind_some, hanswered, Option.bind_some, hreplied]
    refine ⟨c₄, rfl, ?_⟩
    rw [hrf₄, hother₃, hrf₁, hother₄, hrf₃, hother₁]
    cases he
    exact ⟨rfl, rfl⟩

end Exchange

section Pair
variable {l f l' f' : Raft n C D} {server : Fin n}

/-- A leader and another server of its term: where the terms of their logs agree the logs do,
and the leader's tables are in order. -/
structure Partners (l f : Raft n C D) (server : Fin n) : Prop where
  lead : l.state = .leader
  term : f.currentTerm = l.currentTerm
  leader : l.Windowed
  follower : f.Windowed
  matching : Matching Entry.term f.fullLog l.fullLog
  inside : l.nextIndex server ≤ l.fullLog.length + 1
  behind : l.matchIndex server < l.nextIndex server

/-- The leader sends what follows the entries that the two logs are known to share. -/
structure Synced (l f : Raft n C D) (server : Fin n) : Prop extends Partners l f server where
  next : l.nextIndex server = l.matchIndex server + 1
  first : l.lastIncludedIndex ≤ l.matchIndex server
  covered : f.lastIncludedIndex ≤ l.matchIndex server
  reached : l.matchIndex server ≤ f.fullLog.length
  agree : f.fullLog.take (l.matchIndex server) = l.fullLog.take (l.matchIndex server)

/-- The leader still looks for an entry that the two logs share. The follower's snapshot and what
it treats as committed are prefixes of the leader's log. -/
structure Searching (l f : Raft n C D) (server : Fin n) : Prop extends Partners l f server where
  compacted : f.lastIncludedIndex ≤ l.fullLog.length
  shared : f.fullLog.take f.lastIncludedIndex = l.fullLog.take f.lastIncludedIndex
  committed : f.commitIndex ≤ f.fullLog.length ∧
    f.fullLog.take f.commitIndex = l.fullLog.take f.commitIndex
  known : l.matchIndex server = 0 ∨ l.nextIndex server = l.matchIndex server + 1
  reached : l.matchIndex server ≤ f.fullLog.length
  agree : f.fullLog.take (l.matchIndex server) = l.fullLog.take (l.matchIndex server)

theorem Raft.Windowed.appendRequest_entries {next : ℕ} (h : l.Windowed)
    (hfirst : l.lastIncludedIndex < next) :
    (l.appendRequest next).entries =
      (l.fullLog.drop (next - 1)).take (min Raft.batchSize (l.fullLog.length + 1 - next)) := by
  obtain ⟨k, rfl⟩ := Nat.exists_eq_add_of_le hfirst
  have hdrop := h.drop_fullLog k
  have hsize : min (l.lastIncludedIndex + 1 + k + Raft.batchSize) (l.fullLog.length + 1) -
      (l.lastIncludedIndex + 1 + k) =
        min Raft.batchSize (l.fullLog.length + 1 - (l.lastIncludedIndex + 1 + k)) := by omega
  rw [Raft.appendRequest_entries, h.getLastLogIndex_eq, hsize,
    show l.lastIncludedIndex + 1 + k - l.lastIncludedIndex = k + 1 by omega, ← hdrop,
    show l.lastIncludedIndex + 1 + k - 1 = l.lastIncludedIndex + k by omega]

/-- The leader with `index` entries known to match. -/
def Raft.setMatch (l : Raft n C D) (server : Fin n) (index commitIndex : ℕ) : Raft n C D :=
  { l with
    commitIndex := commitIndex
    nextIndex := Function.update l.nextIndex server (index + 1)
    matchIndex := Function.update l.matchIndex server index }

@[simp] theorem Raft.setMatch_matchIndex (server : Fin n) (index commitIndex : ℕ) :
    (l.setMatch server index commitIndex).matchIndex server = index := Function.update_self ..

@[simp] theorem Raft.setMatch_nextIndex (server : Fin n) (index commitIndex : ℕ) :
    (l.setMatch server index commitIndex).nextIndex server = index + 1 := Function.update_self ..

/-- The leader that goes on at `index`. -/
def Raft.setNext (l : Raft n C D) (server : Fin n) (index : ℕ) : Raft n C D :=
  { l with nextIndex := Function.update l.nextIndex server index }

@[simp] theorem Raft.setNext_nextIndex (server : Fin n) (index : ℕ) :
    (l.setNext server index).nextIndex server = index := Function.update_self ..

theorem Raft.Windowed.setMatch (h : l.Windowed) (server : Fin n) (index commitIndex : ℕ) :
    (l.setMatch server index commitIndex).Windowed :=
  And.left (h.of_sameLog rfl rfl rfl rfl h.reached)

theorem Raft.Windowed.setNext (h : l.Windowed) (server : Fin n) (index : ℕ) :
    (l.setNext server index).Windowed :=
  And.left (h.of_sameLog rfl rfl rfl rfl h.reached)

theorem Raft.Windowed.stepDown (h : f.Windowed) (term : ℕ) : (f.stepDown term).Windowed :=
  And.left (h.of_sameLog rfl rfl rfl rfl h.reached)

theorem Raft.noteMatch_commit (server : Fin n) (args : AppendEntriesArgs n C) : ∃ commitIndex,
    (l.noteMatch server args).commit =
      l.setMatch server (args.prevLogIndex + args.entries.length) commitIndex := by
  rcases (l.noteMatch server args).commit_cases with he | ⟨-, target, -, -, -, he⟩
  · exact ⟨l.commitIndex, he⟩
  · exact ⟨target, he⟩

theorem Raft.Windowed.logs_ne (h : l.Windowed) : l.logs ≠ [] := by
  rw [h.head]
  exact List.cons_ne_nil _ _

namespace Partners
variable (h : Partners l f server)
include h

theorem appendRequest_prev :
    (l.appendRequest (l.nextIndex server)).prevLogIndex + 1 = l.nextIndex server := by
  have hbehind := h.behind
  rw [Raft.appendRequest_prevLogIndex]
  omega

theorem exchange_window (hfirst : l.lastIncludedIndex < l.nextIndex server) :
    l.exchange f server =
      some (l.handleAppendEntriesReply server (l.appendRequest (l.nextIndex server))
          (f.appendEntries (l.appendRequest (l.nextIndex server))).2,
        (f.appendEntries (l.appendRequest (l.nextIndex server))).1) := by
  have hlast : l.nextIndex server ≤ l.getLastLogIndex + 1 := by
    rw [h.leader.getLastLogIndex_eq]
    exact h.inside
  rw [Raft.exchange, l.broadcastTo_of_window hfirst hlast, Option.map_some]

theorem exchange_compacted (hbefore : l.nextIndex server ≤ l.lastIncludedIndex) :
    l.exchange f server = some (l.handleInstallSnapshotReply server l.snapshotRequest ⟨0⟩,
      (f.installSnapshot l.snapshotRequest).1) := by
  rw [Raft.exchange, l.broadcastTo_of_snapshot (Nat.zero_lt_of_lt h.behind) hbefore, Option.map_some]

theorem setMatch {index : ℕ} (commitIndex : ℕ) (hlast : index ≤ l.fullLog.length)
    (hterm : f'.currentTerm = l.currentTerm) (hwindow : f'.Windowed)
    (hmatching : Matching Entry.term f'.fullLog l.fullLog) :
    Partners (l.setMatch server index commitIndex) f' server where
  lead := h.lead
  term := hterm
  leader := h.leader.setMatch server index commitIndex
  follower := hwindow
  matching := hmatching
  inside := by
    rw [Raft.setMatch_nextIndex]
    exact Nat.succ_le_succ hlast
  behind := by
    rw [Raft.setMatch_nextIndex, Raft.setMatch_matchIndex]
    exact Nat.lt_succ_self index

theorem synced_setMatch {index : ℕ} (commitIndex : ℕ) (hfirst : l.lastIncludedIndex ≤ index)
    (hlast : index ≤ l.fullLog.length) (hterm : f'.currentTerm = l.currentTerm)
    (hwindow : f'.Windowed) (hmatching : Matching Entry.term f'.fullLog l.fullLog)
    (hcovered : f'.lastIncludedIndex ≤ index) (hreached : index ≤ f'.fullLog.length)
    (hagree : f'.fullLog.take index = l.fullLog.take index) :
    Synced (l.setMatch server index commitIndex) f' server where
  toPartners := h.setMatch commitIndex hlast hterm hwindow hmatching
  next := by rw [Raft.setMatch_nextIndex, Raft.setMatch_matchIndex]
  first := by rwa [Raft.setMatch_matchIndex]
  covered := by rwa [Raft.setMatch_matchIndex]
  reached := by rwa [Raft.setMatch_matchIndex]
  agree := by rwa [Raft.setMatch_matchIndex]

theorem accepts (hfirst : l.lastIncludedIndex < l.nextIndex server)
    (hcovered : f.lastIncludedIndex < l.nextIndex server)
    (hreached : l.nextIndex server ≤ f.fullLog.length + 1)
    (hagree : f.fullLog.take (l.nextIndex server - 1) = l.fullLog.take (l.nextIndex server - 1)) :
    f.Accepts (l.appendRequest (l.nextIndex server)) where
  first := Nat.le_sub_one_of_lt hcovered
  last := by
    rw [h.follower.getLastLogIndex_eq, Raft.appendRequest_prevLogIndex]
    omega
  prev := by
    have hinside := h.inside
    rw [Raft.appendRequest_prevLogTerm, Raft.appendRequest_prevLogIndex,
      h.leader.getLogTerm_eq (by omega) (by omega), h.follower.getLogTerm_eq (by omega) (by omega),
      termAt_congr Entry.term hagree]

/-- An accepted request moves the leader on by a batch. -/
theorem exchange_accepted (hfirst : l.lastIncludedIndex < l.nextIndex server)
    (hcovered : f.lastIncludedIndex < l.nextIndex server)
    (hreached : l.nextIndex server ≤ f.fullLog.length + 1)
    (hagree : f.fullLog.take (l.nextIndex server - 1) = l.fullLog.take (l.nextIndex server - 1)) :
    ∃ l' f', l.exchange f server = some (l', f') ∧ Synced l' f' server ∧
      l'.fullLog = l.fullLog ∧ l'.matchIndex server =
        l.nextIndex server - 1 + min Raft.batchSize (l.fullLog.length + 1 - l.nextIndex server) := by
  have hinside := h.inside
  have hexchange := h.exchange_window hfirst
  rw [Raft.appendEntries_of_accepts f h.follower.logs_ne h.term.le
      (h.accepts hfirst hcovered hreached hagree),
    l.handleAppendEntriesReply_of_success h.term.le h.appendRequest_prev rfl] at hexchange
  have hentries := h.leader.appendRequest_entries hfirst
  have hprev' : f.lastIncludedIndex ≤ (l.appendRequest (l.nextIndex server)).prevLogIndex :=
    Nat.le_sub_one_of_lt hcovered
  obtain ⟨hwindow, hmerged⟩ := h.follower.accept hprev'
  generalize hsize : min Raft.batchSize (l.fullLog.length + 1 - l.nextIndex server) = size at hentries
  have hlen : (l.appendRequest (l.nextIndex server)).entries.length = size := by
    rw [hentries, List.length_take, List.length_drop]
    omega
  obtain ⟨hagree', hlog, -⟩ := mergeAt_spec h.matching (show l.nextIndex server - 1 ≤ f.fullLog.length
    by omega) hentries (by omega) hagree
  rw [Raft.appendRequest_prevLogIndex] at hmerged
  rw [← hmerged] at hagree' hlog
  obtain ⟨k, hcommit⟩ := l.noteMatch_commit server (l.appendRequest (l.nextIndex server))
  rw [hcommit, hlen, Raft.appendRequest_prevLogIndex] at hexchange
  have hlong : l.nextIndex server - 1 + size ≤
      (f.accept (l.appendRequest (l.nextIndex server))).fullLog.length := by
    have := congrArg List.length hagree'
    simp only [List.length_take] at this
    omega
  have hmatching : Matching Entry.term (f.accept (l.appendRequest (l.nextIndex server))).fullLog
      l.fullLog := by
    rcases hlog with he | he <;> rw [he]
    · exact h.matching
    · exact matching_take _ _ _
  refine ⟨_, _, hexchange, h.synced_setMatch k ?_ ?_ rfl hwindow hmatching ?_ hlong hagree', rfl, ?_⟩
  · omega
  · omega
  · exact (Nat.le_sub_one_of_lt hcovered).trans (Nat.le_add_right _ _)
  · rw [Raft.setMatch_matchIndex]

/-- An accepted request starts behind a common prefix. -/
theorem agree_of_accepts (hfirst : l.lastIncludedIndex < l.nextIndex server)
    (haccepts : f.Accepts (l.appendRequest (l.nextIndex server))) :
    f.lastIncludedIndex < l.nextIndex server ∧ l.nextIndex server ≤ f.fullLog.length + 1 ∧
      f.fullLog.take (l.nextIndex server - 1) = l.fullLog.take (l.nextIndex server - 1) := by
  obtain ⟨hcovered, hlast, hprev⟩ := haccepts
  have hinside := h.inside
  rw [Raft.appendRequest_prevLogIndex] at hcovered hlast hprev
  rw [h.follower.getLastLogIndex_eq] at hlast
  rw [Raft.appendRequest_prevLogTerm, h.leader.getLogTerm_eq (by omega) (by omega),
    h.follower.getLogTerm_eq hcovered hlast] at hprev
  exact ⟨by omega, by omega,
    h.matching.take_eq_of_termAt hlast (by omega) (Int.ofNat_inj.mp hprev).symm⟩

end Partners

/-- What the exchange is for. The follower may have entries behind the end of the leader's log. -/
def CaughtUp (l f : Raft n C D) (server : Fin n) : Prop :=
  l.matchIndex server = l.getLastLogIndex ∧ ∀ i, l.lastIncludedIndex < i → f.lastIncludedIndex < i →
    ∀ e, l.entryAt i = some e → f.entryAt i = some e

namespace Synced
variable (h : Synced l f server)
include h

theorem exchange : ∃ l' f', l.exchange f server = some (l', f') ∧ Synced l' f' server ∧
    l'.fullLog = l.fullLog ∧ l'.matchIndex server =
      l.matchIndex server + min Raft.batchSize (l.fullLog.length - l.matchIndex server) := by
  have hnext := h.next
  have hfirst := h.first
  have hcovered := h.covered
  have hreached := h.reached
  obtain ⟨l', f', hexchange, hsynced, hlog, hmatch⟩ := h.toPartners.exchange_accepted (by omega)
    (by omega) (by omega) (by rw [hnext]; exact h.agree)
  refine ⟨l', f', hexchange, hsynced, hlog, ?_⟩
  rw [hmatch, hnext]
  omega

theorem caughtUp (hend : l.matchIndex server = l.fullLog.length) : CaughtUp l f server := by
  refine ⟨hend.trans h.leader.getLastLogIndex_eq.symm, fun i hi _ e he => ?_⟩
  obtain ⟨j, rfl⟩ : ∃ j, i = j + 1 := ⟨i - 1, by omega⟩
  rw [h.leader.entryAt_succ] at he
  have hlt := (List.getElem?_eq_some_iff.mp he).1
  have hj := congrArg (·[j]?) h.agree
  simp only [List.getElem?_take, hend, hlt, if_true] at hj
  rw [h.follower.entryAt_succ, hj, he]

end Synced

/-- The follower's snapshot reaches behind the entry that the next `AppendEntries` starts with: the
next request, or the one after a snapshot that the follower does not need. -/
def BehindSnapshot (l f : Raft n C D) (server : Fin n) : Prop :=
  l.lastIncludedIndex < l.nextIndex server ∧ l.nextIndex server ≤ f.lastIncludedIndex ∨
    l.nextIndex server ≤ l.lastIncludedIndex ∧ l.lastIncludedIndex < f.lastIncludedIndex ∧
      l.lastIncludedIndex ≤ f.commitIndex

instance (l f : Raft n C D) (server : Fin n) : Decidable (BehindSnapshot l f server) :=
  inferInstanceAs (Decidable (_ ∨ _))

namespace Searching
variable (h : Searching l f server)
include h

theorem setNext {hint : ℕ} (hzero : l.matchIndex server = 0) (hpos : 0 < hint)
    (hback : hint < l.nextIndex server) :
    Searching (l.setNext server hint) (f.stepDown l.currentTerm) server where
  lead := h.lead
  term := rfl
  leader := h.leader.setNext server hint
  follower := h.follower.stepDown l.currentTerm
  matching := h.matching
  inside := by
    rw [Raft.setNext_nextIndex]
    exact hback.le.trans h.inside
  behind := by
    rw [Raft.setNext_nextIndex]
    exact hzero.trans_lt hpos
  compacted := h.compacted
  shared := h.shared
  committed := h.committed
  known := Or.inl hzero
  reached := h.reached
  agree := h.agree

/-- A follower that refuses a request inside its window names an index inside it, too. -/
theorem appendEntries_refused (hfirst : l.lastIncludedIndex < l.nextIndex server)
    (hcovered : f.lastIncludedIndex < l.nextIndex server)
    (hnot : ¬f.Accepts (l.appendRequest (l.nextIndex server))) : ∃ hint t,
    f.appendEntries (l.appendRequest (l.nextIndex server)) =
      (f.stepDown l.currentTerm, ⟨f.currentTerm, false, hint, t⟩) ∧
      f.lastIncludedIndex < hint ∧ hint < l.nextIndex server := by
  have hinside := h.inside
  have hlogs := h.follower.logs_ne
  have hlii := Raft.lastIncludedIndex_le_getLastLogIndex hlogs
  have hprev : f.lastIncludedIndex ≤ (l.appendRequest (l.nextIndex server)).prevLogIndex :=
    Nat.le_sub_one_of_lt hcovered
  rcases Nat.lt_or_ge f.getLastLogIndex (l.appendRequest (l.nextIndex server)).prevLogIndex with
    hbehind | hlast
  · refine ⟨_, _, f.appendEntries_of_behind h.term.le hlogs hbehind, by omega, ?_⟩
    rw [Raft.appendRequest_prevLogIndex] at hbehind
    omega
  · have hterm : (l.appendRequest (l.nextIndex server)).prevLogTerm ≠
        f.getLogTerm (l.appendRequest (l.nextIndex server)).prevLogIndex :=
      fun hterm => hnot ⟨hprev, hlast, hterm⟩
    have hne : f.lastIncludedIndex ≠ (l.appendRequest (l.nextIndex server)).prevLogIndex := by
      intro heq
      refine hterm ?_
      have hcompacted := h.compacted
      have hlong := h.follower.length_fullLog
      rw [← heq, Raft.appendRequest_prevLogTerm, h.follower.getLogTerm_eq le_rfl (by omega),
        ← Raft.appendRequest_prevLogIndex l (l.nextIndex server), ← heq,
        h.leader.getLogTerm_eq (by rw [heq, Raft.appendRequest_prevLogIndex]; omega) hcompacted,
        termAt_congr Entry.term h.shared]
    refine ⟨_, _, f.appendEntries_of_conflict h.term.le hprev hlast hterm, ?_, ?_⟩
    · exact (f.stepDown _).lt_conflictIndex _ (lt_of_le_of_ne hprev hne)
    · refine ((f.stepDown _).conflictIndex_le _ _).trans_lt ?_
      rw [Raft.appendRequest_prevLogIndex]
      omega

/-- A refusal takes the leader back, but not behind the follower's snapshot. -/
theorem exchange_refused (hfirst : l.lastIncludedIndex < l.nextIndex server)
    (hcovered : f.lastIncludedIndex < l.nextIndex server)
    (hnot : ¬f.Accepts (l.appendRequest (l.nextIndex server))) : ∃ l' f',
    l.exchange f server = some (l', f') ∧ Searching l' f' server ∧ ¬BehindSnapshot l' f' server ∧
      l'.nextIndex server < l.nextIndex server := by
  have hinside := h.inside
  obtain ⟨hint, t, hreply, hlow, hback⟩ := h.appendEntries_refused hfirst hcovered hnot
  -- what is known to match would have been accepted
  have hzero : l.matchIndex server = 0 := by
    rcases h.known with hzero | hnext
    · exact hzero
    · have hreached := h.reached
      exact absurd (h.toPartners.accepts hfirst hcovered (by omega) (by rw [hnext]; exact h.agree)) hnot
  have hexchange := h.toPartners.exchange_window hfirst
  rw [hreply, l.handleAppendEntriesReply_of_refusal h.term.le h.appendRequest_prev rfl, if_pos hback,
    max_eq_right (Nat.one_le_of_lt hlow)] at hexchange
  refine ⟨l.setNext server hint, f.stepDown l.currentTerm, hexchange,
    h.setNext hzero (Nat.zero_lt_of_lt hlow) hback, ?_, ?_⟩
  · rintro (⟨-, hle⟩ | ⟨hle, hlt, -⟩)
    · rw [Raft.setNext_nextIndex] at hle
      exact absurd hle (not_le.mpr hlow)
    · rw [Raft.setNext_nextIndex] at hle
      exact absurd (hle.trans_lt hlt) (not_lt.mpr hlow.le)
  · rwa [Raft.setNext_nextIndex]

/-- The leader takes any reply to its snapshot for success. -/
theorem exchange_of_compacted (hbefore : l.nextIndex server ≤ l.lastIncludedIndex) :
    l.exchange f server = some (l.setMatch server l.lastIncludedIndex l.commitIndex,
      if l.lastIncludedIndex ≤ f.commitIndex then f else f.install l.snapshotRequest) := by
  have hup : l.snapshotRequest.lastIncludedIndex > l.matchIndex server := h.behind.trans_le hbefore
  rw [h.toPartners.exchange_compacted hbefore, Raft.handleInstallSnapshotReply,
    if_neg (Nat.not_lt_zero _), if_pos hup]
  rcases f.installSnapshot_cases l.snapshotRequest with ⟨hlt, -⟩ | ⟨-, hle, he⟩ | ⟨-, hlt, he⟩
  · exact absurd hlt (not_lt.mpr h.term.le)
  · rw [he, Raft.snapshotRequest_term, f.observe_of_eq h.term]
    simp only [Raft.snapshotRequest_lastIncludedIndex] at hle
    rw [if_pos hle]
    rfl
  · rw [he]
    simp only [Raft.snapshotRequest_lastIncludedIndex] at hlt
    rw [if_neg (not_le.mpr hlt)]
    rfl

/-- An installed snapshot is a common prefix. -/
theorem install_agrees : (f.install l.snapshotRequest).Windowed ∧
    Matching Entry.term (f.install l.snapshotRequest).fullLog l.fullLog ∧
    l.lastIncludedIndex ≤ (f.install l.snapshotRequest).fullLog.length ∧
    (f.install l.snapshotRequest).fullLog.take l.lastIncludedIndex =
      l.fullLog.take l.lastIncludedIndex := by
  have hdata : l.snapshotRequest.data.entries = l.fullLog.take l.lastIncludedIndex :=
    h.leader.take_lastIncludedIndex.symm
  have hlong := h.leader.length_fullLog
  by_cases hm : f.matchLog l.snapshotRequest.lastIncludedIndex l.snapshotRequest.lastIncludedTerm
  · obtain ⟨hwindow, hlog⟩ := h.follower.install_matched h.leader.covered h.leader.headTerm hm
    obtain ⟨-, hreached, hterm⟩ := h.follower.matchLog_iff.mp hm
    have hagree : f.fullLog.take l.lastIncludedIndex = l.fullLog.take l.lastIncludedIndex :=
      h.matching.take_eq_of_termAt hreached (by omega)
        (hterm.trans h.leader.termAt_lastIncludedIndex.symm)
    have hsame : (f.install l.snapshotRequest).fullLog = f.fullLog := by
      rw [hlog, hdata, ← hagree]
      exact List.take_append_drop _ _
    rw [hsame]
    exact ⟨hwindow, h.matching, hreached, hagree⟩
  · obtain ⟨hwindow, hlog⟩ := Raft.Windowed.install_unmatched h.leader.covered h.leader.headTerm hm
    rw [hlog, hdata]
    refine ⟨hwindow, matching_take _ _ _, ?_, ?_⟩
    · rw [List.length_take]
      omega
    · rw [List.take_take, Nat.min_self]

/-- Unless the follower's own snapshot is ahead, a snapshot is a common prefix from then on. -/
theorem exchange_snapshot (hbefore : l.nextIndex server ≤ l.lastIncludedIndex)
    (hopen : ¬BehindSnapshot l f server) :
    ∃ l' f', l.exchange f server = some (l', f') ∧ Synced l' f' server := by
  have hlong := h.leader.length_fullLog
  refine ⟨_, _, h.exchange_of_compacted hbefore, ?_⟩
  split_ifs with hcommit
  · have hcovered : f.lastIncludedIndex ≤ l.lastIncludedIndex := by
      by_contra hlt
      exact hopen (Or.inr ⟨hbefore, not_le.mp hlt, hcommit⟩)
    exact h.toPartners.synced_setMatch _ le_rfl (by omega) h.term h.follower h.matching hcovered
      (hcommit.trans h.committed.1) (take_le_congr h.committed.2 hcommit)
  · obtain ⟨hwindow, hmatching, hreached, hagree⟩ := h.install_agrees
    exact h.toPartners.synced_setMatch _ le_rfl (by omega)
      (f.observe_currentTerm h.term.le) hwindow hmatching le_rfl hreached hagree

/-- An exchange finds a common entry or takes the leader back. -/
theorem exchange_open (hopen : ¬BehindSnapshot l f server) : ∃ l' f',
    l.exchange f server = some (l', f') ∧ (Synced l' f' server ∨
      Searching l' f' server ∧ ¬BehindSnapshot l' f' server ∧
        l'.nextIndex server < l.nextIndex server) := by
  rcases Nat.lt_or_ge l.lastIncludedIndex (l.nextIndex server) with hfirst | hbefore
  · have hcovered : f.lastIncludedIndex < l.nextIndex server := by
      by_contra hle
      exact hopen (Or.inl ⟨hfirst, not_lt.mp hle⟩)
    by_cases haccepts : f.Accepts (l.appendRequest (l.nextIndex server))
    · obtain ⟨-, hreached, hagree⟩ := h.toPartners.agree_of_accepts hfirst haccepts
      obtain ⟨l', f', hexchange, hsynced, -⟩ :=
        h.toPartners.exchange_accepted hfirst hcovered hreached hagree
      exact ⟨l', f', hexchange, Or.inl hsynced⟩
    · obtain ⟨l', f', hexchange, hrest⟩ := h.exchange_refused hfirst hcovered haccepts
      exact ⟨l', f', hexchange, Or.inr hrest⟩
  · obtain ⟨l', f', hexchange, hsynced⟩ := h.exchange_snapshot hbefore hopen
    exact ⟨l', f', hexchange, Or.inl hsynced⟩

/-- A follower whose snapshot reaches behind the request names an index that is no step back. -/
theorem exchange_before (hfirst : l.lastIncludedIndex < l.nextIndex server)
    (hbehind : l.nextIndex server ≤ f.lastIncludedIndex) :
    l.exchange f server = some (l, f.stepDown l.currentTerm) := by
  have hprev := h.appendRequest_prev
  rw [h.toPartners.exchange_window hfirst,
    f.appendEntries_of_before h.term.le h.follower.logs_ne (by omega),
    l.handleAppendEntriesReply_of_refusal h.term.le hprev rfl, if_neg (not_lt.mpr hbehind)]
  rfl

theorem exchange_behind (hbehind : BehindSnapshot l f server) : ∃ l' f',
    l.exchange f server = some (l', f') ∧ Searching l' f' server ∧ BehindSnapshot l' f' server := by
  rcases hbehind with ⟨hfirst, hle⟩ | ⟨hbefore, hahead, hcommit⟩
  · exact ⟨_, _, h.exchange_before hfirst hle,
      { h with
        term := rfl
        follower := h.follower.stepDown l.currentTerm },
      Or.inl ⟨hfirst, hle⟩⟩
  · have hcompacted := h.compacted
    have hexchange := h.exchange_of_compacted hbefore
    rw [if_pos hcommit] at hexchange
    have hreached := hcommit.trans h.committed.1
    have hagree := take_le_congr h.committed.2 hcommit
    have hlast := hahead.le.trans hcompacted
    refine ⟨_, _, hexchange,
      { toPartners := h.toPartners.setMatch _ hlast h.term h.follower h.matching
        compacted := h.compacted
        shared := h.shared
        committed := h.committed
        known := Or.inr ?_
        reached := ?_
        agree := ?_ }, Or.inl ⟨?_, ?_⟩⟩
    · rw [Raft.setMatch_nextIndex, Raft.setMatch_matchIndex]
    · rwa [Raft.setMatch_matchIndex]
    · rwa [Raft.setMatch_matchIndex]
    · rw [Raft.setMatch_nextIndex]
      exact Nat.lt_succ_self _
    · rw [Raft.setMatch_nextIndex]
      exact hahead

theorem not_caughtUp (hbehind : BehindSnapshot l f server) : ¬CaughtUp l f server := by
  have hcompacted := h.compacted
  have hlong := h.leader.length_fullLog
  have hknown := h.behind
  intro hcaught
  have hend := hcaught.1
  rw [h.leader.getLastLogIndex_eq] at hend
  rcases hbehind with ⟨-, hle⟩ | ⟨hle, hlt, -⟩
  · omega
  · omega

end Searching

end Pair

section Cluster
variable {leader follower : Fin n} (hne : follower ≠ leader)
include hne

theorem Synced.eventually_caughtUp
    (h : Synced (c.node leader).rf (c.node follower).rf follower) :
    Eventually (Cluster.exchange leader follower)
      (fun c => CaughtUp (c.node leader).rf (c.node follower).rf follower) c := by
  refine eventually_of_rank
    (P := fun c => Synced (c.node leader).rf (c.node follower).rf follower)
    (fun c => (c.node leader).rf.fullLog.length - (c.node leader).rf.matchIndex follower) h
    fun c hc => ?_
  by_cases hend : (c.node leader).rf.matchIndex follower = (c.node leader).rf.fullLog.length
  · exact Or.inl (hc.caughtUp hend)
  · obtain ⟨l, f, hexchange, hsynced, hlog, hmatch⟩ := hc.exchange
    obtain ⟨c', hround, rfl, rfl⟩ := Cluster.exchange_eq hc.lead hne hexchange
    refine Or.inr ⟨c', hround, Or.inr ⟨hsynced, ?_⟩⟩
    have hinside := hc.inside
    have hnext := hc.next
    have hsize : 0 < Raft.batchSize := by decide
    simp only [hlog, hmatch]
    omega

theorem Searching.eventually_caughtUp
    (h : Searching (c.node leader).rf (c.node follower).rf follower)
    (hopen : ¬BehindSnapshot (c.node leader).rf (c.node follower).rf follower) :
    Eventually (Cluster.exchange leader follower)
      (fun c => CaughtUp (c.node leader).rf (c.node follower).rf follower) c := by
  have hsynced : Eventually (Cluster.exchange leader follower)
      (fun c => Synced (c.node leader).rf (c.node follower).rf follower) c := by
    refine eventually_of_rank
      (P := fun c => Searching (c.node leader).rf (c.node follower).rf follower ∧
        ¬BehindSnapshot (c.node leader).rf (c.node follower).rf follower)
      (fun c => (c.node leader).rf.nextIndex follower) ⟨h, hopen⟩ fun c hc => Or.inr ?_
    obtain ⟨l, f, hexchange, hrest⟩ := hc.1.exchange_open hc.2
    obtain ⟨c', hround, rfl, rfl⟩ := Cluster.exchange_eq hc.1.lead hne hexchange
    exact ⟨c', hround, hrest.imp_right fun hr => ⟨⟨hr.1, hr.2.1⟩, hr.2.2⟩⟩
  exact hsynced.trans fun _ hc => hc.eventually_caughtUp hne

theorem Searching.never_caughtUp
    (h : Searching (c.node leader).rf (c.node follower).rf follower)
    (hbehind : BehindSnapshot (c.node leader).rf (c.node follower).rf follower) :
    ¬Eventually (Cluster.exchange leader follower)
      (fun c => CaughtUp (c.node leader).rf (c.node follower).rf follower) c := by
  refine not_eventually
    (P := fun c => Searching (c.node leader).rf (c.node follower).rf follower ∧
      BehindSnapshot (c.node leader).rf (c.node follower).rf follower)
    ⟨h, hbehind⟩ (fun c c' hc hround => ?_) fun c hc => hc.1.not_caughtUp hc.2
  obtain ⟨l, f, hexchange, hrest⟩ := hc.1.exchange_behind hc.2
  obtain ⟨c'', hround', rfl, rfl⟩ := Cluster.exchange_eq hc.1.lead hne hexchange
  rw [hround'] at hround
  cases hround
  exact hrest

end Cluster

/-- Every delivery meets the conditions of state machine safety and is timely. -/
def OrderlyDelivery (c : Cluster n C D) (a : Action n C D) : Prop :=
  SoundDelivery c a ∧ TimelyDelivery c a

instance (c : Cluster n C D) (a : Action n C D) : Decidable (OrderlyDelivery c a) :=
  inferInstanceAs (Decidable (_ ∧ _))

theorem OrderlyDelivery.matchDelivery {a : Action n C D} (h : OrderlyDelivery c a) :
    MatchDelivery c a := by
  cases a with
  | deliver k => exact fun p hp => ⟨h.1 p hp, (h.2 p hp).2.1⟩
  | _ => trivial

theorem searching_of_reaches (h : Reaches Cluster.step OrderlyDelivery (Cluster.init n C D) c)
    {leader follower : Fin n} (hlead : (c.node leader).rf.state = .leader)
    (hne : follower ≠ leader)
    (hterm : (c.node follower).rf.currentTerm = (c.node leader).rf.currentTerm) :
    Searching (c.node leader).rf (c.node follower).rf follower := by
  obtain ⟨-, s, hr, ht⟩ := exists_tracked (h.mono fun _ _ hok => hok.matchDelivery)
  obtain ⟨hinside, hbehind, hknown⟩ :=
    (Cluster.Tracked.of_reaches (h.mono fun _ _ hok => hok.2)).tables leader hlead follower hne
  obtain ⟨hreached, hagree⟩ := ht.take_matchIndex hr hlead hterm.le
  have hleads := (hr.node leader).leads hlead
  have hmatching := (hr.inv.log_sourced follower).matching (hr.inv.leader_sourced _ leader hleads)
  have hfinal : ∀ k, Final s (c.node follower).rf k → k ≤ (c.node leader).rf.fullLog.length ∧
      (c.node follower).rf.fullLog.take k = (c.node leader).rf.fullLog.take k := by
    intro k hk
    rw [← hr.leaderLog_eq hlead]
    exact Chosen.leaderLog hr.inv hk hterm.le hleads
  have hsettled := (hr.node follower).settled
  rw [(hr.node follower).log, hr.leaderLog_eq hlead] at hmatching
  rw [(hr.node leader).window.getLastLogIndex_eq] at hinside
  exact {
    lead := hlead
    term := hterm
    leader := (hr.node leader).window
    follower := (hr.node follower).window
    matching := hmatching
    inside := hinside
    behind := hbehind
    compacted := (hfinal _ hsettled.lastIncludedIndex).1
    shared := (hfinal _ hsettled.lastIncludedIndex).2
    committed := ⟨hsettled.commitIndex.reaches, (hfinal _ hsettled.commitIndex).2⟩
    known := hknown
    reached := hreached
    agree := hagree }

/-- In every state of a run with orderly deliveries, a leader that exchanges requests and replies
with another server of its term brings it up to date, if and only if the server's snapshot does not
reach behind the entry that the leader's next `AppendEntries` starts with. -/
theorem exchange_catches_up (c : Cluster n C D)
    (h : Reaches Cluster.step OrderlyDelivery (Cluster.init n C D) c) (leader follower : Fin n)
    (hlead : (c.node leader).rf.state = .leader) (hne : follower ≠ leader)
    (hterm : (c.node follower).rf.currentTerm = (c.node leader).rf.currentTerm) :
    Eventually (Cluster.exchange leader follower)
        (fun c => CaughtUp (c.node leader).rf (c.node follower).rf follower) c ↔
      ¬BehindSnapshot (c.node leader).rf (c.node follower).rf follower := by
  have hsearching := searching_of_reaches h hlead hne hterm
  constructor
  · intro heventually hbehind
    exact hsearching.never_caughtUp hne hbehind heventually
  · intro hopen
    exact hsearching.eventually_caughtUp hne hopen

/-- Server 0 leads for the second time with two entries that server 2, which elected it, does not
have. It starts behind its own log and has to back up. -/
theorem exchange_catches_up_second_term : ∃ c : Cluster 3 ℕ ℕ,
    Reaches Cluster.step OrderlyDelivery (Cluster.init 3 ℕ ℕ) c ∧
      (c.node 0).rf.state = .leader ∧ (c.node 2).rf.currentTerm = (c.node 0).rf.currentTerm ∧
      (c.node 0).rf.nextIndex 2 = 3 ∧ (c.node 2).rf.getLastLogIndex = 0 ∧
      Eventually (Cluster.exchange 0 2) (fun c => CaughtUp (c.node 0).rf (c.node 2).rf 2) c := by
  obtain ⟨c, hreach, hlead, hterm, hnext, hlast, hopen⟩ :=
    exists_reaches Cluster.step OrderlyDelivery (Cluster.init 3 ℕ ℕ)
      [.startElection 0, .deliver 1, .deliver 1, .start 0 (some 7), .start 0 (some 8), .drop 0,
        .startElection 0, .deliver 1, .deliver 1]
      (fun c => (c.node 0).rf.state = .leader ∧
        (c.node 2).rf.currentTerm = (c.node 0).rf.currentTerm ∧ (c.node 0).rf.nextIndex 2 = 3 ∧
        (c.node 2).rf.getLastLogIndex = 0 ∧ ¬BehindSnapshot (c.node 0).rf (c.node 2).rf 2)
      (by decide +kernel)
  exact ⟨c, hreach, hlead, hterm, hnext, hlast,
    (exchange_catches_up c hreach 0 2 hlead (by decide) hterm).mpr hopen⟩

/-- Server 1 gets the first entry twice, the second time with the news that it is committed, and
both replies are lost. It applies the entry and compacts its log. The leader still asks for an
entry before the snapshot, and does so for good. -/
theorem exchange_never_catches_up : ∃ c : Cluster 3 ℕ ℕ,
    Reaches Cluster.step OrderlyDelivery (Cluster.init 3 ℕ ℕ) c ∧
      (c.node 0).rf.state = .leader ∧ (c.node 1).rf.currentTerm = (c.node 0).rf.currentTerm ∧
      (c.node 0).rf.getLastLogIndex = 1 ∧ (c.node 0).rf.matchIndex 1 = 0 ∧
      (c.node 1).rf.lastIncludedIndex = 1 ∧
      ¬Eventually (Cluster.exchange 0 1) (fun c => CaughtUp (c.node 0).rf (c.node 1).rf 1) c := by
  obtain ⟨c, hreach, hlead, hterm, hlast, hmatch, hlii, hbehind⟩ :=
    exists_reaches Cluster.step OrderlyDelivery (Cluster.init 3 ℕ ℕ)
      [.startElection 0, .deliver 0, .deliver 1, .drop 0, .start 0 (some 7), .broadcast 0 1,
        .deliver 0, .drop 0, .broadcast 0 2, .deliver 0, .deliver 0, .broadcast 0 1, .deliver 0,
        .drop 0, .pick 1, .send 1 0, .snapshot 1 1 none]
      (fun c => (c.node 0).rf.state = .leader ∧
        (c.node 1).rf.currentTerm = (c.node 0).rf.currentTerm ∧
        (c.node 0).rf.getLastLogIndex = 1 ∧ (c.node 0).rf.matchIndex 1 = 0 ∧
        (c.node 1).rf.lastIncludedIndex = 1 ∧ BehindSnapshot (c.node 0).rf (c.node 1).rf 1)
      (by decide +kernel)
  exact ⟨c, hreach, hlead, hterm, hlast, hmatch, hlii,
    (searching_of_reaches hreach hlead (by decide) hterm).never_caughtUp (by decide) hbehind⟩

end DistributedLabs.Raft1
