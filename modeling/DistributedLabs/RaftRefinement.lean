import DistributedLabs.RaftElectionSafety
import DistributedLabs.RaftLogWindow
import DistributedLabs.TermLeaderCompleteness

/-!
# `raft1` refines the one-leader-per-term protocol

The relation between a cluster and a state of the abstract protocol: terms and
whole logs agree, the protocol's votes and leaders are those the cluster's history
records, everything a server treats as final has been chosen, and every packet in
flight says something true about the record. A step of the cluster is a step of
the protocol or none.

Three conditions restrict the runs. Besides `VoteKept`, a leader must not take a
successful reply to a request of an earlier term for progress in its own term
(`ReplyStands`), and an installed snapshot must reach behind the one the server
already has (`SnapshotStands`).
-/

namespace DistributedLabs.Raft1
open TransitionRuns MajorityQuorums TermLogs TermLeader

variable {n : ℕ} {C D : Type} {s s' : TermLeader.State (Fin n) (Entry C)}

/-- The first `k` entries of the server's log are chosen. -/
def Final (s : TermLeader.State (Fin n) (Entry C)) (rf : Raft n C D) (k : ℕ) : Prop :=
  Chosen Entry.term s rf.currentTerm k rf.fullLog

/-- What a message on `applyCh` says about chosen entries. -/
def Told (s : TermLeader.State (Fin n) (Entry C)) : ApplyMsg C D → Prop
  | .command command i _ => ∃ T l e, Chosen Entry.term s T i l ∧ 0 < i ∧ l[i - 1]? = some e ∧
      e.command = command
  | .snapshot data _ i => ∃ T l, Chosen Entry.term s T i l ∧ data.entries = l.take i

theorem Told.mono (inv : Inv Entry.term s) (hext : Extends s s') {m : ApplyMsg C D}
    (h : Told s m) : Told s' m := by
  cases m with
  | command command i t =>
    obtain ⟨T, l, e, hl, hrest⟩ := h
    exact ⟨T, l, e, hl.mono inv hext, hrest⟩
  | snapshot data t i =>
    obtain ⟨T, l, hl, hrest⟩ := h
    exact ⟨T, l, hl.mono inv hext, hrest⟩

structure Settled (s : TermLeader.State (Fin n) (Entry C)) (nd : Node n C D) : Prop where
  commitIndex : Final s nd.rf nd.rf.commitIndex
  lastApplied : Final s nd.rf nd.rf.lastApplied
  lastIncludedIndex : Final s nd.rf nd.rf.lastIncludedIndex
  received : ∀ m ∈ nd.received, Final s nd.rf m.index
  sending : ∀ x ∈ nd.sending, Final s nd.rf x.msg.index ∧ Told s x.msg

/-- One server stands for its row of the abstract state. -/
structure Represents (s : TermLeader.State (Fin n) (Entry C)) (v : Fin n) (nd : Node n C D) :
    Prop where
  window : nd.rf.Windowed
  term : s.term v = nd.rf.currentTerm
  log : s.log v = nd.rf.fullLog
  /-- a candidate that lost may already have taken over some of the winner's log -/
  stood : nd.rf.state = .candidate → s.vote v nd.rf.currentTerm = some v ∧
    (s.leader nd.rf.currentTerm = none → s.candLog v nd.rf.currentTerm = nd.rf.fullLog)
  leads : nd.rf.state = .leader → s.leader nd.rf.currentTerm = some v
  own : nd.rf.state = .leader → nd.rf.matchIndex v ≤ s.acked v nd.rf.currentTerm
  /-- a stale reply to a snapshot raises `matchIndex` no further than what is final -/
  matched : nd.rf.state = .leader → ∀ p, p ≠ v →
    nd.rf.matchIndex p ≤ s.acked p nd.rf.currentTerm ∨
      nd.rf.matchIndex p ≤ nd.rf.lastIncludedIndex
  settled : Settled s nd

theorem Settled.mono (inv : Inv Entry.term s) (hext : Extends s s') {nd : Node n C D}
    (h : Settled s nd) : Settled s' nd where
  commitIndex := h.commitIndex.mono inv hext
  lastApplied := h.lastApplied.mono inv hext
  lastIncludedIndex := h.lastIncludedIndex.mono inv hext
  received m hm := (h.received m hm).mono inv hext
  sending x hx := ⟨(h.sending x hx).1.mono inv hext, (h.sending x hx).2.mono inv hext⟩

/-- A server that the step does not touch. -/
theorem Represents.mono (inv : Inv Entry.term s) (hext : Extends s s') {v : Fin n}
    {nd : Node n C D} (h : Represents s v nd) (hterm : s'.term v = s.term v)
    (hlog : s'.log v = s.log v) : Represents s' v nd where
  window := h.window
  term := hterm.trans h.term
  log := hlog.trans h.log
  stood hst := by
    obtain ⟨hv, hl⟩ := h.stood hst
    refine ⟨hext.vote _ _ _ hv, fun hnone => ?_⟩
    rw [hext.candLog _ _ hv]
    refine hl (Option.eq_none_iff_forall_not_mem.mpr fun x hx => ?_)
    rw [hext.leader _ x hx] at hnone
    cases hnone
  leads hst := hext.leader _ _ (h.leads hst)
  own hst := (h.own hst).trans (hext.acked _ _)
  matched hst p hp := (h.matched hst p hp).imp_left fun hm => hm.trans (hext.acked _ _)
  settled := h.settled.mono inv hext

theorem Represents.of_follower {v : Fin n} {nd : Node n C D} (hf : nd.rf.state = .follower)
    (window : nd.rf.Windowed) (term : s.term v = nd.rf.currentTerm)
    (log : s.log v = nd.rf.fullLog) (settled : Settled s nd) : Represents s v nd where
  window := window
  term := term
  log := log
  stood hst := by
    rw [hf] at hst
    cases hst
  leads hst := by
    rw [hf] at hst
    cases hst
  own hst := by
    rw [hf] at hst
    cases hst
  matched hst := by
    rw [hf] at hst
    cases hst
  settled := settled

theorem Represents.of_rf {v : Fin n} {nd nd' : Node n C D} (h : Represents s v nd)
    (hrf : nd'.rf = nd.rf)
    (hreceived : ∀ m ∈ nd'.received, m ∈ nd.received ∨ Final s nd.rf m.index)
    (hsending : ∀ x ∈ nd'.sending, x ∈ nd.sending ∨ Final s nd.rf x.msg.index ∧ Told s x.msg) :
    Represents s v nd' := by
  obtain ⟨rf, incarnation, votes, electedFlag, sending, received, base⟩ := nd'
  obtain rfl : rf = nd.rf := hrf
  refine ⟨h.window, h.term, h.log, h.stood, h.leads, h.own, h.matched, h.settled.commitIndex,
    h.settled.lastApplied, h.settled.lastIncludedIndex, fun m hm => ?_, fun x hx => ?_⟩
  · exact (hreceived m hm).elim (h.settled.received m) id
  · exact (hsending x hx).elim (h.settled.sending x) id

/-- Another `rf` for the same node, once what was final is known to stay so. -/
theorem Settled.setRf {nd : Node n C D} {rf : Raft n C D} (h : Settled s nd)
    (keep : ∀ k, Final s nd.rf k → Final s' rf k) (told : ∀ m : ApplyMsg C D, Told s m → Told s' m)
    (commitIndex : Final s' rf rf.commitIndex) (lastApplied : Final s' rf rf.lastApplied)
    (lastIncludedIndex : Final s' rf rf.lastIncludedIndex) : Settled s' { nd with rf := rf } where
  commitIndex := commitIndex
  lastApplied := lastApplied
  lastIncludedIndex := lastIncludedIndex
  received m hm := keep _ (h.received m hm)
  sending x hx := ⟨keep _ (h.sending x hx).1, told _ (h.sending x hx).2⟩

theorem Final.mono {rf rf' : Raft n C D} {k : ℕ} (h : Final s rf k) (inv : Inv Entry.term s)
    (hext : Extends s s') (hterm : rf.currentTerm ≤ rf'.currentTerm)
    (hlog : rf'.fullLog = rf.fullLog) : Final s' rf' k := by
  unfold Final
  rw [hlog]
  exact Chosen.mono inv hext (Chosen.of_term_le h hterm)

theorem Settled.sameLog {nd : Node n C D} {rf : Raft n C D} (h : Settled s nd)
    (inv : Inv Entry.term s) (hext : Extends s s') (hterm : nd.rf.currentTerm ≤ rf.currentTerm)
    (hlog : rf.fullLog = nd.rf.fullLog) (hcommit : rf.commitIndex = nd.rf.commitIndex)
    (happlied : rf.lastApplied = nd.rf.lastApplied)
    (hlii : rf.lastIncludedIndex = nd.rf.lastIncludedIndex) : Settled s' { nd with rf := rf } := by
  have hkeep : ∀ k, Final s nd.rf k → Final s' rf k := fun k hk => hk.mono inv hext hterm hlog
  refine h.setRf hkeep (fun m hm => hm.mono inv hext) ?_ ?_ ?_
  · exact hcommit ▸ hkeep _ h.commitIndex
  · exact happlied ▸ hkeep _ h.lastApplied
  · exact hlii ▸ hkeep _ h.lastIncludedIndex

/-- The entries of a request are a segment of the leader's log. -/
structure AppendOk (s : TermLeader.State (Fin n) (Entry C)) (args : AppendEntriesArgs n C) :
    Prop where
  reaches : args.prevLogIndex + args.entries.length ≤ (s.leaderLog args.term).length
  entries : args.entries =
    ((s.leaderLog args.term).drop args.prevLogIndex).take args.entries.length
  prevLogTerm : args.prevLogTerm = termAt Entry.term (s.leaderLog args.term) args.prevLogIndex
  leaderCommit : Chosen Entry.term s args.term args.leaderCommit (s.leaderLog args.term)

/-- A snapshot stands for a chosen prefix of the leader's log. -/
structure SnapshotOk (s : TermLeader.State (Fin n) (Entry C)) (args : InstallSnapshotArgs n C D) :
    Prop where
  entries : args.data.entries = (s.leaderLog args.term).take args.lastIncludedIndex
  lastIncludedTerm :
    args.lastIncludedTerm = termAt Entry.term (s.leaderLog args.term) args.lastIncludedIndex
  final : Chosen Entry.term s args.term args.lastIncludedIndex (s.leaderLog args.term)

/-- What a packet says, given how far every server has compacted its log. -/
def PacketOk (s : TermLeader.State (Fin n) (Entry C)) (compacted : Fin n → ℕ)
    (p : Packet n C D) : Prop :=
  match p.body with
  | .requestVote args => s.vote p.caller args.term = some p.caller ∧
      args.lastLogIndex = (s.candLog p.caller args.term).length ∧
      args.lastLogTerm = lastTerm Entry.term (s.candLog p.caller args.term)
  | .requestVoteReply _ _ => True
  | .appendEntries args => p.callee ≠ p.caller ∧ s.leader args.term = some p.caller ∧
      AppendOk s args
  | .appendEntriesReply args reply => p.callee ≠ p.caller ∧ (reply.success →
      args.prevLogIndex + args.entries.length ≤ s.acked p.callee args.term)
  | .installSnapshot args => p.callee ≠ p.caller ∧ s.leader args.term = some p.caller ∧
      SnapshotOk s args ∧ args.lastIncludedIndex ≤ compacted p.caller
  | .installSnapshotReply args _ => p.callee ≠ p.caller ∧
      args.lastIncludedIndex ≤ compacted p.caller ∧
      (args.lastIncludedIndex ≤ s.acked p.callee args.term ∨ args.term < s.term p.callee)

section PacketMono
variable (inv : Inv Entry.term s) (hext : Extends s s')
include inv hext

theorem chosen_leaderLog_mono {T k : ℕ} {c : Fin n} (hc : s.leader T = some c)
    (h : Chosen Entry.term s T k (s.leaderLog T)) : Chosen Entry.term s' T k (s'.leaderLog T) :=
  (h.mono inv hext).congr (hext.take_leaderLog hc h.reaches)

theorem AppendOk.mono {args : AppendEntriesArgs n C} {c : Fin n}
    (hc : s.leader args.term = some c) (h : AppendOk s args) : AppendOk s' args where
  reaches := h.reaches.trans (hext.leaderLog _ c hc).length_le
  entries := by
    rw [List.take_drop, hext.take_leaderLog hc h.reaches, ← List.take_drop]
    exact h.entries
  prevLogTerm := by
    rw [termAt_congr Entry.term (hext.take_leaderLog hc (by have := h.reaches; omega))]
    exact h.prevLogTerm
  leaderCommit := chosen_leaderLog_mono inv hext hc h.leaderCommit

theorem SnapshotOk.mono {args : InstallSnapshotArgs n C D} {c : Fin n}
    (hc : s.leader args.term = some c) (h : SnapshotOk s args) : SnapshotOk s' args where
  entries := by
    rw [hext.take_leaderLog hc h.final.reaches]
    exact h.entries
  lastIncludedTerm := by
    rw [termAt_congr Entry.term (hext.take_leaderLog hc h.final.reaches)]
    exact h.lastIncludedTerm
  final := chosen_leaderLog_mono inv hext hc h.final

theorem PacketOk.mono {compacted compacted' : Fin n → ℕ} (hle : ∀ v, compacted v ≤ compacted' v)
    {p : Packet n C D} (h : PacketOk s compacted p) : PacketOk s' compacted' p := by
  unfold PacketOk at h ⊢
  split at h
  · obtain ⟨hv, hrest⟩ := h
    exact ⟨hext.vote _ _ _ hv, by rwa [hext.candLog _ _ hv]⟩
  · trivial
  · obtain ⟨hne, hc, hok⟩ := h
    exact ⟨hne, hext.leader _ _ hc, hok.mono inv hext hc⟩
  · exact ⟨h.1, fun hr => (h.2 hr).trans (hext.acked _ _)⟩
  · obtain ⟨hne, hc, hok, hlii⟩ := h
    exact ⟨hne, hext.leader _ _ hc, hok.mono inv hext hc, hlii.trans (hle _)⟩
  · obtain ⟨hne, hlii, hack⟩ := h
    exact ⟨hne, hlii.trans (hle _), hack.imp (fun ha => ha.trans (hext.acked _ _))
      fun ht => ht.trans_le (hext.term _)⟩

end PacketMono

def Cluster.compacted (c : Cluster n C D) (v : Fin n) : ℕ := (c.node v).rf.lastIncludedIndex

structure Refines (c : Cluster n C D) (s : TermLeader.State (Fin n) (Entry C)) : Prop where
  inv : Inv Entry.term s
  node : ∀ v, Represents s v (c.node v)
  vote : ∀ v T x, s.vote v T = some x ↔ (v, T, x) ∈ c.granted
  leader : ∀ v T, s.leader T = some v ↔ (v, T) ∈ c.elected
  packets : ∀ p ∈ c.net, PacketOk s c.compacted p
  calls : ∀ v, ∀ x ∈ (c.node v).sending, ∀ call ∈ x.call, PacketOk s c.compacted (call.reply v)
  applied : ∀ a ∈ c.applied, Told s a.2

theorem refines_init : Refines (Cluster.init n C D) (TermLeader.initial (Fin n) (Entry C)) where
  inv := inv_initial
  node v := .of_follower rfl (Raft.windowed_init v).1 rfl rfl
    ⟨.zero _ _, .zero _ _, .zero _ _, nofun, nofun⟩
  vote := by simp [TermLeader.initial, Cluster.init]
  leader := by simp [TermLeader.initial, Cluster.init]
  packets := nofun
  calls := nofun
  applied := nofun

/-- The abstract state after a step of the cluster. -/
def Follows (s s' : TermLeader.State (Fin n) (Entry C)) : Prop :=
  s' = s ∨ TermLeader.Step Entry.term s s'

theorem Follows.extends (h : Follows s s') (inv : Inv Entry.term s) : Extends s s' := by
  rcases h with rfl | h
  · exact .refl s'
  · exact h.extends inv

theorem Follows.inv (h : Follows s s') (inv : Inv Entry.term s) : Inv Entry.term s' := by
  rcases h with rfl | h
  · exact inv
  · exact h.inv inv

theorem Refines.update {c c' : Cluster n C D} (h : Refines c s) (hf : Follows s s') {i : Fin n}
    {nd : Node n C D} (hnode : c'.node = Function.update c.node i nd)
    (hrep : Represents s' i nd) (hothers : ∀ j, j ≠ i → s'.term j = s.term j ∧ s'.log j = s.log j)
    (hlii : (c.node i).rf.lastIncludedIndex ≤ nd.rf.lastIncludedIndex)
    (hvote : ∀ v T x, s'.vote v T = some x ↔ (v, T, x) ∈ c'.granted)
    (hleader : ∀ v T, s'.leader T = some v ↔ (v, T) ∈ c'.elected)
    (hnet : ∀ p ∈ c'.net, p ∈ c.net ∨ PacketOk s' c'.compacted p)
    (hsending : ∀ x ∈ nd.sending, x ∈ (c.node i).sending ∨
      ∀ call ∈ x.call, PacketOk s' c'.compacted (call.reply i))
    (happlied : ∀ a ∈ c'.applied, a ∈ c.applied ∨ Told s' a.2) : Refines c' s' := by
  have hext := hf.extends h.inv
  have hi : c'.node i = nd := by rw [hnode, Function.update_self]
  have hj : ∀ j, j ≠ i → c'.node j = c.node j := fun j hne => by
    rw [hnode, Function.update_of_ne hne]
  have hle : ∀ v, c.compacted v ≤ c'.compacted v := by
    intro v
    by_cases hv : v = i
    · subst hv
      rw [Cluster.compacted, Cluster.compacted, hi]
      exact hlii
    · rw [Cluster.compacted, Cluster.compacted, hj v hv]
  refine ⟨hf.inv h.inv, fun v => ?_, hvote, hleader, fun p hp => ?_, fun v x hx call hc => ?_,
    fun a ha => ?_⟩
  · by_cases hv : v = i
    · subst hv
      rwa [hi]
    · rw [hj v hv]
      exact (h.node v).mono h.inv hext (hothers v hv).1 (hothers v hv).2
  · rcases hnet p hp with hp | hp
    · exact (h.packets p hp).mono h.inv hext hle
    · exact hp
  · by_cases hv : v = i
    · subst hv
      rw [hi] at hx
      rcases hsending x hx with hx | hx
      · exact (h.calls v x hx call hc).mono h.inv hext hle
      · exact hx call hc
    · rw [hj v hv] at hx
      exact (h.calls v x hx call hc).mono h.inv hext hle
  · rcases happlied a ha with ha | ha
    · exact (h.applied a ha).mono h.inv hext
    · exact ha

theorem Refines.stutter {c c' : Cluster n C D} (h : Refines c s) {i : Fin n} {nd : Node n C D}
    (hnode : c'.node = Function.update c.node i nd) (hrep : Represents s i nd)
    (hlii : (c.node i).rf.lastIncludedIndex ≤ nd.rf.lastIncludedIndex)
    (hgranted : c'.granted = c.granted) (helected : c'.elected = c.elected)
    (hnet : ∀ p ∈ c'.net, p ∈ c.net ∨ PacketOk s c'.compacted p)
    (hsending : ∀ x ∈ nd.sending, x ∈ (c.node i).sending ∨
      ∀ call ∈ x.call, PacketOk s c'.compacted (call.reply i))
    (happlied : ∀ a ∈ c'.applied, a ∈ c.applied ∨ Told s a.2) : Refines c' s :=
  h.update (Or.inl rfl) hnode hrep (fun _ _ => ⟨rfl, rfl⟩) hlii (hgranted ▸ h.vote)
    (helected ▸ h.leader) hnet hsending happlied

theorem Refines.lose {c : Cluster n C D} (h : Refines c s) (k : ℕ) :
    Refines { c with net := c.net.eraseIdx k } s :=
  ⟨h.inv, h.node, h.vote, h.leader, fun p hp => h.packets p (List.mem_of_mem_eraseIdx hp),
    h.calls, h.applied⟩

/-- A later term alone. -/
theorem Represents.stepDown (inv : Inv Entry.term s) {v : Fin n} {nd : Node n C D}
    (h : Represents s v nd) {T : ℕ} (hT : nd.rf.currentTerm ≤ T) :
    Represents (s.bump v T) v { nd with rf := nd.rf.stepDown T } := by
  have hext := extends_bump v T (h.term.le.trans hT)
  have hwin : (nd.rf.stepDown T).Windowed ∧ (nd.rf.stepDown T).fullLog = nd.rf.fullLog :=
    h.window.of_sameLog rfl rfl rfl rfl h.window.reached
  exact .of_follower rfl hwin.1 (by simp) h.log (h.settled.sameLog inv hext hT hwin.2 rfl rfl rfl)

end DistributedLabs.Raft1
