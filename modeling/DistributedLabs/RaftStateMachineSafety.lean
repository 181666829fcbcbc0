import DistributedLabs.RaftSimulation
import DistributedLabs.RaftSteps

/-!
# Applied commands and `matchIndex`

The two results the simulation is for. Commands sent on `applyCh` under one index
are equal, over all servers and all restarts. A leader's `matchIndex` counts only
entries the peer has, as long as the peer is not in a later term; here replies to
`InstallSnapshot` matter too, since they say neither whether the snapshot was taken
nor in which term.

Each result comes with a run of the unrestricted cluster that breaks it.
-/

namespace DistributedLabs.Raft1
open TransitionRuns TermLogs TermLeader

variable {n : ℕ} {C D : Type} {c c' : Cluster n C D}

/-- Commands sent on `applyCh` under the same index are equal. -/
def AppliedAgree (c : Cluster n C D) : Prop :=
  ∀ v w command command' i t t', (v, .command command i t) ∈ c.applied →
    (w, .command command' i t') ∈ c.applied → command = command'

theorem exists_refines (h : Reaches Cluster.step SoundDelivery (Cluster.init n C D) c) :
    ElectionInv c ∧ ∃ s, Refines c s := by
  have hkept : ∀ (c : Cluster n C D) a c', (ElectionInv c ∧ ∃ s, Refines c s) →
      SoundDelivery c a → c.step a = some c' → ElectionInv c' ∧ ∃ s, Refines c' s := by
    rintro c a c' ⟨helect, s, hs⟩ hsound hstep
    obtain ⟨s', -, hs'⟩ := hs.step helect hsound hstep
    exact ⟨helect.step hsound.voteKept hstep, s', hs'⟩
  exact h.invariant ⟨ElectionInv.init, _, refines_init⟩ hkept

theorem Refines.appliedAgree {s : TermLeader.State (Fin n) (Entry C)} (h : Refines c s) :
    AppliedAgree c := by
  intro v w command command' i t t' hv hw
  obtain ⟨T, l, e, hl, hpos, he, rfl⟩ := h.applied _ hv
  obtain ⟨U, m, f, hm, -, hf, rfl⟩ := h.applied _ hw
  have hagree := hl.agree h.inv hm le_rfl le_rfl
  have hef := congrArg (·[i - 1]?) hagree
  have hlt : i - 1 < i := by omega
  simp only [List.getElem?_take, hlt, if_true, he, hf, Option.some.injEq] at hef
  rw [hef]

/-- State machine safety in every run whose deliveries meet the three conditions. -/
theorem applied_agree_of_soundDelivery (c : Cluster n C D)
    (h : Reaches Cluster.step SoundDelivery (Cluster.init n C D) c) : AppliedAgree c := by
  obtain ⟨-, s, hs⟩ := exists_refines h
  exact hs.appliedAgree

/-- Two of three servers apply a command that the third never saw. -/
theorem applied_agree_of_soundDelivery_twice : ∃ c : Cluster 3 ℕ ℕ,
    Reaches Cluster.step SoundDelivery (Cluster.init 3 ℕ ℕ) c ∧
      (0, .command (some 7) 1 1) ∈ c.applied ∧ (1, .command (some 7) 1 1) ∈ c.applied ∧
      AppliedAgree c := by
  obtain ⟨c, hreach, h0, h1⟩ :=
    exists_reaches Cluster.step SoundDelivery (Cluster.init 3 ℕ ℕ)
      [.startElection 0, .deliver 0, .deliver 1, .start 0 (some 7), .broadcast 0 1, .deliver 1,
        .deliver 1, .pick 0, .send 0 0, .broadcast 0 1, .deliver 1, .pick 1, .send 1 0]
      (fun c => (0, .command (some 7) 1 1) ∈ c.applied ∧ (1, .command (some 7) 1 1) ∈ c.applied)
      (by decide +kernel)
  exact ⟨c, hreach, h0, h1, applied_agree_of_soundDelivery c hreach⟩

/-- Servers 0 and 1 lead term 1 together and each commits its own command through
server 2. -/
theorem applied_commands_differ : ∃ c : Cluster 3 ℕ ℕ,
    Reaches Cluster.step anyStep (Cluster.init 3 ℕ ℕ) c ∧ ¬AppliedAgree c ∧
      (0, .command (some 7) 1 1) ∈ c.applied ∧ (1, .command (some 8) 1 1) ∈ c.applied := by
  obtain ⟨c, hreach, h0, h1⟩ :=
    exists_reaches Cluster.step anyStep (Cluster.init 3 ℕ ℕ)
      [.startElection 0, .startElection 1, .deliver 1, .deliver 3, .broadcast 0 2, .deliver 3,
        .deliver 2, .deliver 3, .start 0 (some 7), .start 1 (some 8), .drop 0, .drop 0, .drop 0,
        .broadcast 0 2, .deliver 0, .deliver 0, .pick 0, .send 0 0,
        .broadcast 1 2, .deliver 0, .deliver 0, .pick 1, .send 1 0]
      (fun c => (0, .command (some 7) 1 1) ∈ c.applied ∧ (1, .command (some 8) 1 1) ∈ c.applied)
      (by decide +kernel)
  refine ⟨c, hreach, fun h => ?_, h0, h1⟩
  exact absurd (h _ _ _ _ _ _ _ h0 h1) (by decide)

/-- A leader counts for a peer that is not in a later term only entries the peer has. -/
def MatchTruthful (c : Cluster n C D) : Prop :=
  ∀ v p, (c.node v).rf.state = .leader →
    (c.node p).rf.currentTerm ≤ (c.node v).rf.currentTerm →
    ∀ i, 0 < i → i ≤ (c.node v).rf.matchIndex p → ∃ e,
      (c.node p).rf.entryAt i = some e ∧ (c.node v).rf.entryAt i = some e

/-- A leader lets only replies to snapshots of its own term raise `matchIndex`. -/
def SnapshotReplyStands (c : Cluster n C D) (p : Packet n C D) : Prop :=
  ∀ r ∈ p.body.snapshotReply, (c.node p.caller).incarnation = p.incarnation →
    (c.node p.caller).rf.state = .leader → r.2.term ≤ (c.node p.caller).rf.currentTerm →
    (c.node p.caller).rf.matchIndex p.callee < r.1.lastIncludedIndex →
    r.1.term = (c.node p.caller).rf.currentTerm

instance (c : Cluster n C D) (p : Packet n C D) : Decidable (SnapshotReplyStands c p) :=
  inferInstanceAs (Decidable (∀ r ∈ p.body.snapshotReply, _))

/-- Every delivery meets the conditions of state machine safety and this one. -/
def MatchDelivery (c : Cluster n C D) : Action n C D → Prop
  | .deliver k => ∀ p ∈ c.net[k]?, Sound c p ∧ SnapshotReplyStands c p
  | _ => True

instance (c : Cluster n C D) (a : Action n C D) : Decidable (MatchDelivery c a) :=
  match a with
  | .deliver k => inferInstanceAs (Decidable (∀ p ∈ c.net[k]?, Sound c p ∧ SnapshotReplyStands c p))
  | .startElection _ | .start _ _ | .broadcast _ _ | .drop _ | .pick _ | .send _ _
  | .snapshot _ _ _ | .restart _ => .isTrue trivial

theorem MatchDelivery.soundDelivery {a : Action n C D} (h : MatchDelivery c a) :
    SoundDelivery c a := by
  cases a with
  | deliver k => exact fun p hp => (h p hp).1
  | _ => trivial

/-- Where a leader's `matchIndex` for a peer comes from. -/
inductive MatchOrigin (c : Cluster n C D) (v p : Fin n) (T m : ℕ) : Prop
  | zero (hm : m = 0)
  | kept (hl : (c.node v).rf.state = .leader) (hT : (c.node v).rf.currentTerm = T)
      (hm : (c.node v).rf.matchIndex p = m)
  | append (q : Packet n C D) (hq : q ∈ c.net) (hp : q.callee = p) (args : AppendEntriesArgs n C)
      (reply : AppendEntriesReply) (hbody : q.body = .appendEntriesReply args reply)
      (hs : reply.success) (hT : args.term = T)
      (hm : m = args.prevLogIndex + args.entries.length)
  | snapshot (q : Packet n C D) (hq : q ∈ c.net) (hp : q.callee = p)
      (args : InstallSnapshotArgs n C D) (reply : InstallSnapshotReply)
      (hbody : q.body = .installSnapshotReply args reply) (hT : args.term = T)
      (hm : m = args.lastIncludedIndex)

/-- The server is a follower, or its `matchIndex` still stands for the same leadership. -/
def MatchKept (rf rf' : Raft n C D) : Prop :=
  rf'.state = .follower ∨ rf'.state = rf.state ∧ rf'.currentTerm = rf.currentTerm ∧
    rf'.matchIndex = rf.matchIndex

theorem matchKept_observe (rf : Raft n C D) (T : ℕ) : MatchKept rf (rf.observe T) := by
  rcases rf.observe_eq_or T with he | ⟨-, he⟩ <;> rw [he]
  · exact Or.inr ⟨rfl, rfl, rfl⟩
  · exact Or.inl rfl

theorem matchKept_appendEntries {rf : Raft n C D} (hlogs : rf.logs ≠ [])
    (args : AppendEntriesArgs n C) : MatchKept rf (rf.appendEntries args).1 := by
  rcases rf.appendEntries_cases hlogs args with ⟨-, he⟩ | ⟨-, i, t, he⟩ | ⟨-, -, -, -, he⟩ <;> rw [he]
  · exact Or.inr ⟨rfl, rfl, rfl⟩
  · exact Or.inl rfl
  · exact Or.inl rfl

theorem matchKept_installSnapshot (rf : Raft n C D) (args : InstallSnapshotArgs n C D) :
    MatchKept rf (rf.installSnapshot args).1 := by
  rcases rf.installSnapshot_cases args with ⟨-, he⟩ | ⟨-, -, he⟩ | ⟨-, -, he⟩ <;> rw [he]
  · exact Or.inr ⟨rfl, rfl, rfl⟩
  · exact matchKept_observe rf args.term
  · exact matchKept_observe rf args.term

theorem matchKept_requestVote (rf : Raft n C D) (args : RequestVoteArgs n) :
    MatchKept rf (rf.requestVote args).1 := by
  rcases rf.requestVote_cases args with ⟨-, he⟩ | ⟨-, he⟩ | ⟨-, -, -, he⟩ <;> rw [he]
  · exact Or.inr ⟨rfl, rfl, rfl⟩
  · exact matchKept_observe rf args.term
  · exact Or.inl rfl

theorem matchKept_snapshot (rf : Raft n C D) (index : ℕ) (bytes : Option D) :
    MatchKept rf (rf.snapshot index bytes) := by
  rcases rf.snapshot_cases index bytes with ⟨-, he⟩ | ⟨-, e, -, he⟩ | ⟨-, -, he⟩ <;> rw [he] <;>
    exact Or.inr ⟨rfl, rfl, rfl⟩

theorem commit_matchIndex (rf : Raft n C D) : rf.commit.state = rf.state ∧
    rf.commit.currentTerm = rf.currentTerm ∧ rf.commit.matchIndex = rf.matchIndex := by
  rcases rf.commit_cases with he | ⟨-, target, -, -, -, he⟩ <;> rw [he] <;> exact ⟨rfl, rfl, rfl⟩

section Origin
variable {v p : Fin n} {rf : Raft n C D}

theorem MatchOrigin.of_kept (hl : rf.state = .leader) (h : MatchKept (c.node v).rf rf) :
    MatchOrigin c v p rf.currentTerm (rf.matchIndex p) := by
  rcases h with hf | ⟨hst, hT, hm⟩
  · rw [hf] at hl
    cases hl
  · exact .kept (hst.symm.trans hl) hT.symm (by rw [hm])

theorem matchOrigin_appendEntriesReply {q : Packet n C D} {args : AppendEntriesArgs n C}
    {reply : AppendEntriesReply} (hq : q ∈ c.net) (hbody : q.body = .appendEntriesReply args reply)
    (halive : (c.node q.caller).incarnation = q.incarnation) (hstands : ReplyStands c q)
    (hl : ((c.node q.caller).rf.handleAppendEntriesReply q.callee args reply).state = .leader) :
    MatchOrigin c q.caller p
      ((c.node q.caller).rf.handleAppendEntriesReply q.callee args reply).currentTerm
      (((c.node q.caller).rf.handleAppendEntriesReply q.callee args reply).matchIndex p) := by
  rcases (c.node q.caller).rf.handleAppendEntriesReply_cases q.callee args reply with
    ⟨-, he⟩ | ⟨next, he⟩ | ⟨hterm, hnext, hsucc, he⟩ <;> rw [he] at hl ⊢
  · exact .of_kept hl (Or.inl rfl)
  · exact .of_kept hl (Or.inr ⟨rfl, rfl, rfl⟩)
  · obtain ⟨hst, hT, hm⟩ := commit_matchIndex ((c.node q.caller).rf.noteMatch q.callee args)
    have hlead : (c.node q.caller).rf.state = .leader := hst.symm.trans hl
    have hfresh := hstands (args, reply) (by simp [hbody, Rpc.appendReply]) halive hlead hsucc hterm
      hnext
    simp only [hT, hm, Raft.noteMatch_matchIndex, Raft.noteMatch_currentTerm]
    rcases eq_or_ne p q.callee with rfl | hp
    · rw [Function.update_self]
      exact .append q hq rfl args reply hbody hsucc hfresh rfl
    · rw [Function.update_of_ne hp]
      exact .kept hlead rfl rfl

theorem matchOrigin_installSnapshotReply {q : Packet n C D} {args : InstallSnapshotArgs n C D}
    {reply : InstallSnapshotReply} (hq : q ∈ c.net)
    (hbody : q.body = .installSnapshotReply args reply)
    (halive : (c.node q.caller).incarnation = q.incarnation) (hstands : SnapshotReplyStands c q)
    (hl : ((c.node q.caller).rf.handleInstallSnapshotReply q.callee args reply).state = .leader) :
    MatchOrigin c q.caller p
      ((c.node q.caller).rf.handleInstallSnapshotReply q.callee args reply).currentTerm
      (((c.node q.caller).rf.handleInstallSnapshotReply q.callee args reply).matchIndex p) := by
  rcases (c.node q.caller).rf.handleInstallSnapshotReply_cases q.callee args reply with
    ⟨-, he⟩ | he | ⟨hterm, hup, he⟩ <;> rw [he] at hl ⊢
  · exact .of_kept hl (Or.inl rfl)
  · exact .of_kept hl (Or.inr ⟨rfl, rfl, rfl⟩)
  · have hfresh := hstands (args, reply) (by simp [hbody, Rpc.snapshotReply]) halive hl hterm hup
    rcases eq_or_ne p q.callee with rfl | hp
    · simp only [Function.update_self]
      exact .snapshot q hq rfl args reply hbody hfresh rfl
    · simp only [Function.update_of_ne hp]
      exact .kept hl rfl rfl

theorem matchOrigin_of_move {a : Action n C D} (helect : ElectionInv c) (hok : MatchDelivery c a)
    (hpv : p ≠ v) (hm : Move c v a rf) (hl : rf.state = .leader) :
    MatchOrigin c v p rf.currentTerm (rf.matchIndex p) := by
  cases hm with
  | startElection => cases hl
  | start command =>
    by_cases hst : (c.node v).rf.state = .leader
    · simp only [(c.node v).rf.start_of_leader hst]
      refine .kept hst rfl ?_
      simp [Raft.appendOwn, helect.me, hpv]
    · simp only [(c.node v).rf.start_of_not_leader hst] at hl
      exact absurd hl hst
  | broadcast hlead hr =>
    obtain ⟨next, he, -⟩ := (c.node v).rf.broadcastTo_cases hr
    rw [he]
    exact .kept hlead rfl rfl
  | requestVote => exact .of_kept hl (matchKept_requestVote _ _)
  | @requestVoteReply k q args reply =>
    rcases (c.node v).handleRequestVoteReply_cases args reply with
      hnd | ⟨-, hnd⟩ | ⟨-, -, -, hnd | ⟨-, hnd⟩⟩ <;> rw [hnd] at hl ⊢
    · exact .kept hl rfl rfl
    · exact .of_kept hl (Or.inl rfl)
    · exact .kept hl rfl rfl
    · refine .zero ?_
      simp [Raft.becomeLeader, helect.me, hpv]
  | appendEntries => exact .of_kept hl (matchKept_appendEntries (helect.durable _).logs_ne _)
  | @appendEntriesReply k q args reply hq hi hbody halive =>
    subst hi
    exact matchOrigin_appendEntriesReply (List.mem_of_getElem? hq) hbody halive (hok q hq).1.reply hl
  | installSnapshot => exact .of_kept hl (matchKept_installSnapshot _ _)
  | @installSnapshotReply k q args reply hq hi hbody halive =>
    subst hi
    exact matchOrigin_installSnapshotReply (List.mem_of_getElem? hq) hbody halive (hok q hq).2 hl
  | applier hr =>
    obtain ⟨-, -, entry, -, rfl⟩ := (c.node v).rf.applier_cases hr
    exact .kept hl rfl rfl
  | snapshot index bytes => exact .of_kept hl (matchKept_snapshot _ index bytes)
  | restart =>
    have hmake := congrArg Raft.state (Raft.make_of_durable (helect.durable v))
    rw [helect.me v] at hmake
    exact .of_kept hl (Or.inl hmake)

theorem matchOrigin_step {a : Action n C D} (helect : ElectionInv c) (hok : MatchDelivery c a)
    (hs : c.step a = some c') (hpv : p ≠ v) (hl : (c'.node v).rf.state = .leader) :
    MatchOrigin c v p (c'.node v).rf.currentTerm ((c'.node v).rf.matchIndex p) := by
  rcases moved_of_step hs v with he | hm
  · rw [he] at hl ⊢
    exact .kept hl rfl rfl
  · exact matchOrigin_of_move helect hok hpv hm hl

end Origin

/-- What a leader counts for a peer was acknowledged in its term, or the peer has left it. -/
def Tracked (c : Cluster n C D) (s : TermLeader.State (Fin n) (Entry C)) : Prop :=
  ∀ v p, (c.node v).rf.state = .leader →
    (c.node v).rf.matchIndex p ≤ s.acked p (c.node v).rf.currentTerm ∨
      (c.node v).rf.currentTerm < s.term p

theorem Tracked.step {s s' : TermLeader.State (Fin n) (Entry C)} {a : Action n C D}
    (h : Tracked c s) (hr : Refines c s) (hr' : Refines c' s') (hf : Follows s s')
    (helect : ElectionInv c) (hok : MatchDelivery c a) (hs : c.step a = some c') :
    Tracked c' s' := by
  have hext := hf.extends hr.inv
  intro v p hl
  rcases eq_or_ne p v with rfl | hpv
  · exact Or.inl ((hr'.node p).own hl)
  · rcases matchOrigin_step helect hok hs hpv hl with
      hm | ⟨hold, hT, hm⟩ | ⟨q, hq, hp, args, reply, hbody, hsucc, hT, hm⟩ |
      ⟨q, hq, hp, args, reply, hbody, hT, hm⟩
    · rw [hm]
      exact Or.inl (Nat.zero_le _)
    · rw [← hm, ← hT]
      exact (h v p hold).imp (fun hle => hle.trans (hext.acked _ _)) fun hlt =>
        hlt.trans_le (hext.term _)
    · have hpacket := hr.packets q hq
      simp only [PacketOk, hbody] at hpacket
      rw [hm, ← hT, ← hp]
      exact Or.inl ((hpacket.2 hsucc).trans (hext.acked _ _))
    · have hpacket := hr.packets q hq
      simp only [PacketOk, hbody] at hpacket
      rw [hm, ← hT, ← hp]
      exact hpacket.2.2.imp (fun hle => hle.trans (hext.acked _ _)) fun hlt =>
        hlt.trans_le (hext.term _)

theorem Tracked.take_matchIndex {s : TermLeader.State (Fin n) (Entry C)} (h : Tracked c s)
    (hr : Refines c s) {v p : Fin n} (hl : (c.node v).rf.state = .leader)
    (hterm : (c.node p).rf.currentTerm ≤ (c.node v).rf.currentTerm) :
    (c.node v).rf.matchIndex p ≤ (c.node p).rf.fullLog.length ∧
      (c.node p).rf.fullLog.take ((c.node v).rf.matchIndex p) =
        (c.node v).rf.fullLog.take ((c.node v).rf.matchIndex p) := by
  rw [← (hr.node p).term] at hterm
  have hack := (h v p hl).resolve_right (not_lt.mpr hterm)
  rcases hr.inv.holds p _ _ hack with hkeeps | ⟨t', d, hlt, hle, -⟩
  · rw [← hr.leaderLog_eq hl, ← (hr.node p).log]
    exact hkeeps
  · omega

theorem Tracked.matchTruthful {s : TermLeader.State (Fin n) (Entry C)} (h : Tracked c s)
    (hr : Refines c s) : MatchTruthful c := by
  intro v p hl hterm i hpos hi
  obtain ⟨j, rfl⟩ : ∃ j, i = j + 1 := ⟨i - 1, by omega⟩
  obtain ⟨hlen, htake⟩ := h.take_matchIndex hr hl hterm
  have hp := List.getElem?_eq_getElem (show j < (c.node p).rf.fullLog.length by omega)
  have hentry := congrArg (·[j]?) htake
  simp only [List.getElem?_take, Nat.lt_of_succ_le hi, if_true] at hentry
  refine ⟨(c.node p).rf.fullLog[j], ?_, ?_⟩
  · rw [(hr.node p).window.entryAt_succ, hp]
  · rw [(hr.node v).window.entryAt_succ, ← hentry, hp]

theorem exists_tracked (h : Reaches Cluster.step MatchDelivery (Cluster.init n C D) c) :
    ElectionInv c ∧ ∃ s, Refines c s ∧ Tracked c s := by
  have hkept : ∀ (c : Cluster n C D) a c',
      (ElectionInv c ∧ ∃ s, Refines c s ∧ Tracked c s) → MatchDelivery c a →
      c.step a = some c' → ElectionInv c' ∧ ∃ s, Refines c' s ∧ Tracked c' s := by
    rintro c a c' ⟨helect, s, hr, ht⟩ hok hstep
    obtain ⟨s', hf, hr'⟩ := hr.step helect hok.soundDelivery hstep
    exact ⟨helect.step hok.soundDelivery.voteKept hstep, s', hr',
      ht.step hr hr' hf helect hok hstep⟩
  exact h.invariant ⟨ElectionInv.init, _, refines_init, nofun⟩ hkept

/-- `matchIndex` is truthful in every run whose deliveries meet the four conditions. -/
theorem matchIndex_truthful_of_matchDelivery (c : Cluster n C D)
    (h : Reaches Cluster.step MatchDelivery (Cluster.init n C D) c) : MatchTruthful c := by
  obtain ⟨-, s, hr, ht⟩ := exists_tracked h
  exact ht.matchTruthful hr

/-- A leader that counts one entry for server 1. -/
theorem matchIndex_truthful_of_matchDelivery_one : ∃ c : Cluster 3 ℕ ℕ,
    Reaches Cluster.step MatchDelivery (Cluster.init 3 ℕ ℕ) c ∧
      (c.node 0).rf.state = .leader ∧ (c.node 0).rf.matchIndex 1 = 1 ∧ MatchTruthful c := by
  obtain ⟨c, hreach, hlead, hmatch⟩ :=
    exists_reaches Cluster.step MatchDelivery (Cluster.init 3 ℕ ℕ)
      [.startElection 0, .deliver 0, .deliver 1, .start 0 (some 7), .broadcast 0 1, .deliver 1,
        .deliver 1]
      (fun c => (c.node 0).rf.state = .leader ∧ (c.node 0).rf.matchIndex 1 = 1)
      (by decide +kernel)
  exact ⟨c, hreach, hlead, hmatch, matchIndex_truthful_of_matchDelivery c hreach⟩

/-- Server 2 refuses a snapshot of term 1 because it is in term 2. The reply reaches server 0
when it leads term 2, and counts as if the snapshot had been installed. -/
theorem matchIndex_counts_refused_snapshot : ∃ c : Cluster 3 ℕ ℕ,
    Reaches Cluster.step anyStep (Cluster.init 3 ℕ ℕ) c ∧ ¬MatchTruthful c ∧
      (c.node 0).rf.state = .leader ∧ (c.node 0).rf.currentTerm = 2 ∧
      (c.node 2).rf.currentTerm = 2 ∧ (c.node 0).rf.matchIndex 2 = 1 ∧
      (c.node 2).rf.entryAt 1 = none := by
  obtain ⟨c, hreach, hlead, hterm, hterm', hmatch, hnone⟩ :=
    exists_reaches Cluster.step anyStep (Cluster.init 3 ℕ ℕ)
      [.startElection 0, .deliver 0, .deliver 1, .drop 0, .start 0 (some 7), .broadcast 0 1,
        .deliver 0, .deliver 0, .pick 0, .send 0 0, .snapshot 0 1 none, .broadcast 0 2,
        .startElection 2, .startElection 2, .drop 1, .drop 1, .drop 1, .drop 1, .deliver 0,
        .startElection 0, .deliver 1, .deliver 2, .deliver 0]
      (fun c => (c.node 0).rf.state = .leader ∧ (c.node 0).rf.currentTerm = 2 ∧
        (c.node 2).rf.currentTerm = 2 ∧ (c.node 0).rf.matchIndex 2 = 1 ∧
        (c.node 2).rf.entryAt 1 = none) (by decide +kernel)
  refine ⟨c, hreach, fun h => ?_, hlead, hterm, hterm', hmatch, hnone⟩
  obtain ⟨e, he, -⟩ := h 0 2 hlead (by rw [hterm, hterm']) 1 one_pos hmatch.ge
  rw [hnone] at he
  cases he

end DistributedLabs.Raft1
