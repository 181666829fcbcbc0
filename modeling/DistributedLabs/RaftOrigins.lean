import DistributedLabs.RaftStateMachineSafety

/-!
# Where entries, messages and snapshots come from

An entry comes from `Start` on a leader, and from nowhere else: if the log of a term's leader gets an
entry of that term, this step was the call of `Start`. A command on `applyCh` carries the term of the
entry it stands for. The bytes of a snapshot come from the service, whatever server, packet or
message they are found in.
-/

namespace DistributedLabs.Raft1
open TransitionRuns TermLogs TermLeader

variable {n : ℕ} {C D : Type} {c c' : Cluster n C D} {a : Action n C D}

/-- How a server comes to the log and the snapshot it has after a step. -/
inductive Origin (c : Cluster n C D) (i : Fin n) (a : Action n C D) (rf' : Raft n C D) : Prop
  | kept (logs : rf'.logs = (c.node i).rf.logs)
      (lastIncludedIndex : rf'.lastIncludedIndex = (c.node i).rf.lastIncludedIndex)
      (snapshot : rf'.persister.snapshot = (c.node i).rf.persister.snapshot)
  | start (command : Option C) (ha : a = .start i command) (hlead : (c.node i).rf.state = .leader)
      (h : rf' = (c.node i).rf.appendOwn command)
  | accept {k : ℕ} {p : Packet n C D} {args : AppendEntriesArgs n C} (ha : a = .deliver k)
      (hp : c.net[k]? = some p) (hi : p.callee = i) (hbody : p.body = .appendEntries args)
      (h : rf' = (c.node i).rf.accept args)
  | install {k : ℕ} {p : Packet n C D} {args : InstallSnapshotArgs n C D} (ha : a = .deliver k)
      (hp : c.net[k]? = some p) (hi : p.callee = i) (hbody : p.body = .installSnapshot args)
      (hterm : (c.node i).rf.currentTerm ≤ args.term) (h : rf' = (c.node i).rf.install args)
  | compact {index : ℕ} {bytes : Option D} (ha : a = .snapshot i index bytes)
      (h : rf' = (c.node i).rf.snapshot index bytes)

namespace Origin
variable {i : Fin n}

theorem observe (term : ℕ) : Origin c i a ((c.node i).rf.observe term) := by
  rcases (c.node i).rf.observe_eq_or term with he | ⟨-, he⟩ <;> rw [he]
  · exact .kept rfl rfl rfl
  · exact .kept rfl rfl rfl

theorem of_move {rf : Raft n C D} (hd : (c.node i).rf.Durable) (hme : (c.node i).rf.me = i)
    (h : Move c i a rf) : Origin c i a rf := by
  cases h with
  | startElection => exact .kept rfl rfl rfl
  | start command =>
    by_cases hl : (c.node i).rf.state = .leader
    · rw [(c.node i).rf.start_of_leader hl]
      exact .start command rfl hl rfl
    · rw [(c.node i).rf.start_of_not_leader hl]
      exact .kept rfl rfl rfl
  | broadcast hlead hr =>
    obtain ⟨next, he, -⟩ := (c.node i).rf.broadcastTo_cases hr
    rw [he]
    exact .kept rfl rfl rfl
  | @requestVote k p args =>
    rcases (c.node i).rf.requestVote_cases args with ⟨-, he⟩ | ⟨-, he⟩ | ⟨-, -, -, he⟩ <;> rw [he]
    · exact .kept rfl rfl rfl
    · exact .observe args.term
    · exact .kept rfl rfl rfl
  | @requestVoteReply k p args reply =>
    rcases (c.node i).handleRequestVoteReply_cases args reply with
      hnd | ⟨-, hnd⟩ | ⟨-, -, -, hnd | ⟨-, hnd⟩⟩ <;> rw [hnd] <;> exact .kept rfl rfl rfl
  | @appendEntries k p args hp hi hbody =>
    rcases (c.node i).rf.appendEntries_cases hd.logs_ne args with
      ⟨-, he⟩ | ⟨-, x, t, he⟩ | ⟨-, -, -, -, he⟩ <;> rw [he]
    · exact .kept rfl rfl rfl
    · exact .kept rfl rfl rfl
    · exact .accept rfl hp hi hbody rfl
  | @appendEntriesReply k p args reply =>
    rcases (c.node i).rf.handleAppendEntriesReply_cases p.callee args reply with
      ⟨-, he⟩ | ⟨next, he⟩ | ⟨-, -, -, he⟩ <;> rw [he]
    · exact .kept rfl rfl rfl
    · exact .kept rfl rfl rfl
    · rcases ((c.node i).rf.noteMatch p.callee args).commit_cases with
        hc | ⟨-, target, -, -, -, hc⟩ <;> rw [hc] <;> exact .kept rfl rfl rfl
  | @installSnapshot k p args hp hi hbody =>
    rcases (c.node i).rf.installSnapshot_cases args with
      ⟨-, he⟩ | ⟨-, -, he⟩ | ⟨hle, -, he⟩ <;> rw [he]
    · exact .kept rfl rfl rfl
    · exact .observe args.term
    · exact .install rfl hp hi hbody hle rfl
  | @installSnapshotReply k p args reply =>
    rcases (c.node i).rf.handleInstallSnapshotReply_cases p.callee args reply with
      ⟨-, he⟩ | he | ⟨-, -, he⟩ <;> rw [he] <;> exact .kept rfl rfl rfl
  | applier hr =>
    obtain ⟨-, -, entry, -, rfl⟩ := (c.node i).rf.applier_cases hr
    exact .kept rfl rfl rfl
  | snapshot index bytes => exact .compact rfl rfl
  | restart =>
    have hmade : Origin c i (.restart i) (Raft.make (c.node i).rf.me (c.node i).rf.persister) := by
      rw [Raft.make_of_durable hd]
      exact .kept rfl rfl rfl
    rw [hme] at hmade
    exact hmade

theorem of_step (helect : ElectionInv c) (hs : c.step a = some c') (i : Fin n) :
    Origin c i a (c'.node i).rf := by
  rcases moved_of_step hs i with he | hm
  · rw [he]
    exact .kept rfl rfl rfl
  · exact of_move (helect.durable i) (helect.me i) hm

/-- A server has the snapshot that it had, or installs one, or the service has given it one. -/
theorem snapshot_cases {rf' : Raft n C D} (h : Origin c i a rf')
    (ha : ∀ index bytes, a ≠ .snapshot i index bytes) :
    rf'.lastIncludedIndex = (c.node i).rf.lastIncludedIndex ∧
      rf'.persister.snapshot = (c.node i).rf.persister.snapshot ∨
    ∃ k p args, a = .deliver k ∧ c.net[k]? = some p ∧ p.callee = i ∧
      p.body = .installSnapshot args ∧ rf'.lastIncludedIndex = args.lastIncludedIndex ∧
      rf'.persister.snapshot = args.data := by
  cases h with
  | kept _ lastIncludedIndex snapshot => exact .inl ⟨lastIncludedIndex, snapshot⟩
  | start command _ _ h =>
    rw [h]
    exact .inl ⟨rfl, rfl⟩
  | accept _ _ _ _ h =>
    rw [h]
    exact .inl ⟨rfl, rfl⟩
  | install hdeliver hp hi hbody _ h =>
    rw [h]
    exact .inr ⟨_, _, _, hdeliver, hp, hi, hbody, rfl, rfl⟩
  | compact hcompact _ => exact absurd hcompact (ha _ _)

end Origin

section Entries
variable {s s' : TermLeader.State (Fin n) (Entry C)}

theorem Raft.fullLog_appendOwn {rf : Raft n C D} (hlogs : rf.logs ≠ []) (command : Option C) :
    (rf.appendOwn command).fullLog = rf.fullLog ++ [⟨rf.currentTerm, command⟩] := by
  rw [Raft.fullLog, Raft.fullLog]
  change _ ++ (rf.logs ++ [_]).tail = _
  rw [List.tail_append_of_ne_nil hlogs, List.append_assoc]
  rfl

/-- If a leader's log grows by an entry, the step was `Start` on that leader. -/
theorem Refines.start_of_append (h : Refines c s) (helect : ElectionInv c) (hs : c.step a = some c')
    {v : Fin n} {T : ℕ} {e : Entry C} (hleads : s.leader T = some v) (hterm : s.term v = T)
    (h' : Refines c' (s.append v T e)) :
    ∃ command, a = .start v command ∧ (c.node v).rf.state = .leader ∧ e = ⟨T, command⟩ := by
  have hrep := h.node v
  have hlog : (c'.node v).rf.fullLog = (c.node v).rf.fullLog ++ [e] := by
    rw [← (h'.node v).log, ← hrep.log]
    simp
  have hlast : (c'.node v).rf.getLastLogIndex = (c.node v).rf.getLastLogIndex + 1 := by
    rw [(h'.node v).window.getLastLogIndex_eq, hrep.window.getLastLogIndex_eq, hlog]
    simp
  have hsame : (c'.node v).rf.currentTerm = (c.node v).rf.currentTerm := by
    rw [← (h'.node v).term, ← hrep.term]
    simp
  cases Origin.of_step helect hs v with
  | kept logs lastIncludedIndex _ =>
    rw [Raft.getLastLogIndex, logs, lastIncludedIndex, ← Raft.getLastLogIndex] at hlast
    omega
  | start command ha hlead happend =>
    refine ⟨command, ha, hlead, ?_⟩
    rw [happend, Raft.fullLog_appendOwn (helect.durable v).logs_ne] at hlog
    rw [← hterm, hrep.term]
    exact (List.singleton_inj.mp (List.append_cancel_left hlog)).symm
  | @accept k p args ha hp hi hbody haccept =>
    have hok := h.packets p (List.mem_of_getElem? hp)
    simp only [PacketOk, hbody] at hok
    have hT : args.term = T := by
      rw [haccept] at hsame
      rw [← hterm, hrep.term]
      exact hsame
    rw [hT, hleads] at hok
    exact absurd (hi.trans (Option.some.inj hok.2.1)) hok.1
  | @install k p args ha hp hi hbody hle hinstall =>
    have hok := h.packets p (List.mem_of_getElem? hp)
    simp only [PacketOk, hbody] at hok
    have hT : args.term = T := by
      rw [hinstall] at hsame
      rw [← hterm, hrep.term, ← Raft.observe_currentTerm _ hle]
      exact hsame
    rw [hT, hleads] at hok
    exact absurd (hi.trans (Option.some.inj hok.2.1)) hok.1
  | @compact index bytes ha hcompact =>
    subst ha
    obtain ⟨hidx, -⟩ := Cluster.step_snapshot hs
    obtain ⟨m, hm, rfl⟩ := List.mem_map.mp hidx
    obtain ⟨-, hkept, -⟩ := hrep.window.snapshot (hrep.settled.received m hm).reaches bytes
    rw [hcompact, hkept] at hlog
    simpa using congrArg List.length hlog

/-- The entries of a term in the log of its leader, each with the step that put it there. -/
theorem Refines.own_entry (h : Refines c s) (helect : ElectionInv c) (hs : c.step a = some c')
    (hf : Follows s s') (h' : Refines c' s') {T i : ℕ} {e : Entry C}
    (he : (s'.leaderLog T)[i]? = some e) (hT : e.term = T) :
    (s.leaderLog T)[i]? = some e ∨ ∃ v command, a = .start v command ∧
      (c.node v).rf.state = .leader ∧ (c.node v).rf.currentTerm = T ∧
      i = (c.node v).rf.getLastLogIndex ∧ e = ⟨T, command⟩ := by
  rcases hf with rfl | hstep
  · exact .inl he
  cases hstep with
  | bump v U ht => exact .inl he
  | stand v U ht => exact .inl he
  | grant v w U ht free stands recent => exact .inl he
  | adopt v l₀ U l k ht leads other hk agrees origin kept => exact .inl he
  | elect v U Q hQ voted stands ht hl vacant =>
    rcases eq_or_ne T U with rfl | hne
    · have hmem : e ∈ s.candLog v T := by
        rw [← hl]
        exact List.mem_of_getElem? (by simpa using he)
      exact absurd hT ((h.inv.cand_sourced v T stands).2 e hmem).ne
    · exact .inl (by simpa [hne] using he)
  | append v U f leads ht hterm =>
    obtain ⟨command, ha, hlead, hentry⟩ := h.start_of_append helect hs leads ht h'
    rcases eq_or_ne T U with rfl | hne
    · have hold : s.log v = s.leaderLog T := h.inv.leader_log T v leads ht
      simp only [State.append_leaderLog, Function.update_self, hold] at he
      rcases Nat.lt_or_ge i (s.leaderLog T).length with hlt | hge
      · rw [List.getElem?_append_left hlt] at he
        exact .inl he
      · obtain ⟨hi, hget⟩ := List.getElem?_eq_some_iff.mp he
        have hi' : i = (s.leaderLog T).length := by
          simp at hi
          omega
        subst hi'
        refine .inr ⟨v, command, ha, hlead, (h.node v).term.symm.trans ht, ?_, ?_⟩
        · rw [(h.node v).window.getLastLogIndex_eq, ← (h.node v).log, hold]
        · rw [← hentry, ← hget]
          simp
    · exact .inl (by simpa [hne] using he)

/-- A leader's log has at the end what `Start` has put there. -/
theorem Refines.leaderLog_start (h : Refines c s) (helect : ElectionInv c) {v : Fin n}
    {command : Option C} (hs : c.step (.start v command) = some c') (h' : Refines c' s')
    (hlead : (c.node v).rf.state = .leader) :
    (s'.leaderLog (c.node v).rf.currentTerm)[(c.node v).rf.getLastLogIndex]? =
      some ⟨(c.node v).rf.currentTerm, command⟩ := by
  cases hs
  have hrf : ((c.setRf v ((c.node v).rf.start command).1).node v).rf = (c.node v).rf.appendOwn command := by
    simp [Cluster.setRf, Cluster.setNode, (c.node v).rf.start_of_leader hlead]
  have hlog := h'.leaderLog_eq (v := v) (by rw [hrf]; exact hlead)
  rw [hrf, Raft.fullLog_appendOwn (helect.durable v).logs_ne] at hlog
  rw [(h.node v).window.getLastLogIndex_eq]
  refine (congrArg (·[(c.node v).rf.fullLog.length]?) hlog).trans ?_
  simp

end Entries

/-- The messages that an action makes a server send later. -/
inductive Emitted (c : Cluster n C D) (a : Action n C D) (v : Fin n) : ApplyMsg C D → Prop
  | pick {r : Raft n C D × ApplyMsg C D} (ha : a = .pick v) (hr : (c.node v).rf.applier = some r) :
      Emitted c a v r.2
  | install {k : ℕ} {p : Packet n C D} {args : InstallSnapshotArgs n C D} (ha : a = .deliver k)
      (hp : c.net[k]? = some p) (hi : p.callee = v) (hbody : p.body = .installSnapshot args) :
      Emitted c a v (.snapshot args.data args.lastIncludedTerm args.lastIncludedIndex)

/-- What a step does to the messages of one server. -/
structure Passed (c : Cluster n C D) (a : Action n C D) (v : Fin n) (nd : Node n C D) : Prop where
  sending : ∀ x ∈ nd.sending, x ∈ (c.node v).sending ∨ Emitted c a v x.msg
  received : ∀ m ∈ nd.received, m ∈ (c.node v).received ∨ ∃ x ∈ (c.node v).sending, m = x.msg
  same : nd.received = (c.node v).received ∧ nd.base = (c.node v).base ∨
    (∃ k, a = .send v k) ∨ a = .restart v

namespace Passed

theorem of_eq {v : Fin n} {nd : Node n C D} (hsending : nd.sending = (c.node v).sending)
    (hreceived : nd.received = (c.node v).received) (hbase : nd.base = (c.node v).base) :
    Passed c a v nd :=
  ⟨fun _ hx => .inl (hsending ▸ hx), fun _ hm => .inl (hreceived ▸ hm), .inl ⟨hreceived, hbase⟩⟩

theorem of_update {i : Fin n} {nd : Node n C D} (hnode : c'.node = Function.update c.node i nd)
    (h : Passed c a i nd) (v : Fin n) : Passed c a v (c'.node v) := by
  rw [hnode]
  rcases eq_or_ne v i with rfl | hv
  · rw [Function.update_self]
    exact h
  · rw [Function.update_of_ne hv]
    exact of_eq rfl rfl rfl

theorem of_deliver {k : ℕ} {p : Packet n C D} (hp : c.net[k]? = some p) (v : Fin n) :
    Passed c (.deliver k) v ((c.deliver p (c.net.eraseIdx k)).node v) := by
  cases hbody : p.body with
  | requestVote args =>
    simp only [Cluster.deliver, hbody]
    refine of_update rfl ?_ v
    exact of_eq rfl rfl rfl
  | requestVoteReply args reply =>
    simp only [Cluster.deliver, hbody]
    by_cases halive : (c.node p.caller).incarnation = p.incarnation
    · rw [if_pos halive]
      rcases (c.node p.caller).handleRequestVoteReply_cases args reply with
        hnd | ⟨-, hnd⟩ | ⟨-, -, -, hnd | ⟨-, hnd⟩⟩ <;> simp only [hnd] <;>
        refine of_update rfl ?_ v <;> exact of_eq rfl rfl rfl
    · rw [if_neg halive]
      exact of_eq rfl rfl rfl
  | appendEntries args =>
    simp only [Cluster.deliver, hbody]
    refine of_update rfl ?_ v
    exact of_eq rfl rfl rfl
  | appendEntriesReply args reply =>
    simp only [Cluster.deliver, hbody]
    split_ifs
    · refine of_update rfl ?_ v
      exact of_eq rfl rfl rfl
    · exact of_eq rfl rfl rfl
  | installSnapshot args =>
    simp only [Cluster.deliver, hbody]
    rcases (c.node p.callee).rf.installSnapshot_cases args with
      ⟨-, he⟩ | ⟨-, -, he⟩ | ⟨-, -, he⟩ <;> simp only [he]
    · refine of_update rfl ?_ v
      exact of_eq rfl rfl rfl
    · refine of_update rfl ?_ v
      exact of_eq rfl rfl rfl
    · refine of_update rfl ?_ v
      refine ⟨fun x hx => ?_, fun m hm => .inl hm, .inl ⟨rfl, rfl⟩⟩
      rcases List.mem_append.mp hx with hx | hx
      · exact .inl hx
      · rw [List.mem_singleton.mp hx]
        exact .inr (.install rfl hp rfl hbody)
  | installSnapshotReply args reply =>
    simp only [Cluster.deliver, hbody]
    split_ifs
    · refine of_update rfl ?_ v
      exact of_eq rfl rfl rfl
    · exact of_eq rfl rfl rfl

theorem of_step (hs : c.step a = some c') (v : Fin n) : Passed c a v (c'.node v) := by
  cases a with
  | startElection i =>
    cases hs
    refine of_update rfl ?_ v
    exact of_eq rfl rfl rfl
  | start i command =>
    cases hs
    refine of_update rfl ?_ v
    exact of_eq rfl rfl rfl
  | broadcast i server =>
    obtain ⟨r, -, -, -, rfl⟩ := Cluster.step_broadcast hs
    refine of_update rfl ?_ v
    exact of_eq rfl rfl rfl
  | deliver k =>
    obtain ⟨p, hp, rfl⟩ := Option.map_eq_some_iff.mp hs
    exact of_deliver hp v
  | drop k =>
    obtain ⟨-, rfl⟩ := Cluster.step_drop hs
    exact of_eq rfl rfl rfl
  | pick i =>
    obtain ⟨r, hr, rfl⟩ := Cluster.step_pick hs
    rcases eq_or_ne v i with rfl | hv
    · refine of_update rfl ?_ v
      refine ⟨fun x hx => ?_, fun m hm => .inl hm, .inl ⟨rfl, rfl⟩⟩
      rcases List.mem_append.mp hx with hx | hx
      · exact .inl hx
      · rw [List.mem_singleton.mp hx]
        exact .inr (.pick rfl hr)
    · simp only [Cluster.setNode, Function.update_of_ne hv]
      exact of_eq rfl rfl rfl
  | send i k =>
    obtain ⟨x, hx, rfl⟩ := Option.map_eq_some_iff.mp hs
    rcases eq_or_ne v i with rfl | hv
    · refine of_update rfl ?_ v
      refine ⟨fun y hy => .inl (List.mem_of_mem_eraseIdx hy), fun m hm => ?_, .inr (.inl ⟨k, rfl⟩)⟩
      rcases List.mem_append.mp hm with hm | hm
      · exact .inl hm
      · exact .inr ⟨x, List.mem_of_getElem? hx, List.mem_singleton.mp hm⟩
    · simp only [Cluster.setNode, Function.update_of_ne hv]
      exact of_eq rfl rfl rfl
  | snapshot i index bytes =>
    obtain ⟨-, rfl⟩ := Cluster.step_snapshot hs
    refine of_update rfl ?_ v
    exact of_eq rfl rfl rfl
  | restart i =>
    cases hs
    rcases eq_or_ne v i with rfl | hv
    · refine of_update rfl ?_ v
      refine ⟨fun x hx => ?_, fun m hm => ?_, .inr (.inr rfl)⟩
      · cases hx
      · cases hm
    · simp only [Cluster.setNode, Function.update_of_ne hv]
      exact of_eq rfl rfl rfl

end Passed

theorem snapshotArgs_eq {body : Rpc n C D} {args : InstallSnapshotArgs n C D}
    (h : body = .installSnapshot args) : args ∈ body.snapshotArgs := by
  rw [h]
  rfl

/-- A step that is in order keeps the messages of every server in order. -/
theorem ordered_step (helect : ElectionInv c) (h : ∀ i, Ordered (c.node i)) (hg : InOrder c a)
    (hs : c.step a = some c') (i : Fin n) : Ordered (c'.node i) := by
  rcases projects_step helect.durable helect.me hg hs i with he | hstep
  · rw [he]
    exact h i
  · refine (h i).step (helect.durable i) (fun k hk => hk) ?_ hstep
    rintro args ⟨hnew, hterm, k, p, hp, rfl, hbody, hg⟩
    exact hg p hp args (snapshotArgs_eq hbody) hterm hnew

/-- The message stands for a chosen entry, with the entry's term. -/
def Exact (s : TermLeader.State (Fin n) (Entry C)) : ApplyMsg C D → Prop
  | .command command i t => ∃ T l e, Chosen Entry.term s T i l ∧ 0 < i ∧ l[i - 1]? = some e ∧
      e.command = command ∧ (e.term : ℤ) = t
  | .snapshot _ _ _ => True

/-- All messages on the way to the services are exact. -/
structure Messages (c : Cluster n C D) (s : TermLeader.State (Fin n) (Entry C)) : Prop where
  sending : ∀ v, ∀ x ∈ (c.node v).sending, Exact s x.msg
  received : ∀ v, ∀ m ∈ (c.node v).received, Exact s m

section Messages
variable {s s' : TermLeader.State (Fin n) (Entry C)}

theorem Exact.mono (inv : Inv Entry.term s) (hext : Extends s s') {m : ApplyMsg C D} (h : Exact s m) :
    Exact s' m := by
  cases m with
  | command command i t =>
    obtain ⟨T, l, e, hl, hrest⟩ := h
    exact ⟨T, l, e, hl.mono inv hext, hrest⟩
  | snapshot data t i => trivial

theorem Refines.exact_of_emitted (h : Refines c s) {v : Fin n} {m : ApplyMsg C D} (hm : Emitted c a v m) :
    Exact s m := by
  cases hm with
  | install => trivial
  | pick ha hr =>
    have hwin := (h.node v).window
    obtain ⟨hgo, -, entry, hget, rfl⟩ := (c.node v).rf.applier_cases hr
    have hreached := hwin.reached
    have hentry : (c.node v).rf.fullLog[(c.node v).rf.lastApplied]? = some entry := by
      obtain ⟨k, hk⟩ := Nat.exists_eq_add_of_le hreached
      rw [show (c.node v).rf.lastApplied + 1 - (c.node v).rf.lastIncludedIndex = k + 1 by omega,
        hwin.getElem?_slot k, ← hk] at hget
      exact hget
    refine ⟨_, _, entry, Chosen.of_le (h.node v).settled.commitIndex hgo, Nat.succ_pos _, hentry, rfl, ?_⟩
    obtain ⟨k, hk⟩ := Nat.exists_eq_add_of_le hreached
    rw [show (c.node v).rf.lastApplied + 1 - (c.node v).rf.lastIncludedIndex = k + 1 by omega] at hget
    rw [hk, Nat.add_assoc, Raft.getLogTerm_add, Raft.slotTerm, hget]

theorem Messages.step (hm : Messages c s) (h : Refines c s) (hext : Extends s s')
    (hs : c.step a = some c') : Messages c' s' where
  sending v x hx := by
    rcases (Passed.of_step hs v).sending x hx with hx | hx
    · exact (hm.sending v x hx).mono h.inv hext
    · exact (h.exact_of_emitted hx).mono h.inv hext
  received v m hmem := by
    rcases (Passed.of_step hs v).received m hmem with hmem | ⟨x, hx, rfl⟩
    · exact (hm.received v m hmem).mono h.inv hext
    · exact (hm.sending v x hx).mono h.inv hext

theorem messages_init : Messages (Cluster.init n C D) (TermLeader.initial (Fin n) (Entry C)) where
  sending v x hx := by cases hx
  received v m hm := by cases hm

end Messages

/-- The bytes of every snapshot up to an index are known. -/
structure Snapshots (known : ℕ → Option D → Prop) (c : Cluster n C D) : Prop where
  persisters : ∀ v, 0 < (c.node v).rf.lastIncludedIndex →
    known (c.node v).rf.lastIncludedIndex (c.node v).rf.persister.snapshot.bytes
  packets : ∀ p ∈ c.net, ∀ args ∈ p.body.snapshotArgs, known args.lastIncludedIndex args.data.bytes
  sending : ∀ v, ∀ x ∈ (c.node v).sending, ∀ data term i, x.msg = .snapshot data term i → known i data.bytes
  received : ∀ v, ∀ m ∈ (c.node v).received, ∀ data term i, m = .snapshot data term i → known i data.bytes

section Snapshots
variable {known known' : ℕ → Option D → Prop}

theorem snapshots_init : Snapshots known (Cluster.init n C D) where
  persisters v h := by simp [Cluster.init, Node.boot, Raft.make, Raft.readPersist, makePersister] at h
  packets p hp := by cases hp
  sending v x hx := by cases hx
  received v m hm := by cases hm

theorem Snapshots.mono (h : Snapshots known c) (hle : ∀ i bytes, known i bytes → known' i bytes) :
    Snapshots known' c where
  persisters v hv := hle _ _ (h.persisters v hv)
  packets p hp args hargs := hle _ _ (h.packets p hp args hargs)
  sending v x hx data term i hm := hle _ _ (h.sending v x hx data term i hm)
  received v m hmem data term i hm := hle _ _ (h.received v m hmem data term i hm)

/-- A leader sends a snapshot only if it has one. -/
theorem Raft.broadcastTo_snapshot {rf : Raft n C D} {server : Fin n} {r : Raft n C D × Request n C D}
    (h : rf.broadcastTo server = some r) {args : InstallSnapshotArgs n C D}
    (hargs : r.2 = .installSnapshot args) : 0 < rf.lastIncludedIndex ∧
      args.lastIncludedIndex = rf.lastIncludedIndex ∧ args.data = rf.persister.snapshot := by
  simp only [broadcastTo] at h
  split_ifs at h with hzero hfirst hend hfirst hend
  all_goals (cases h; cases hargs)
  · simp [getFirstLogIndex] at hfirst
    exact ⟨by omega, rfl, rfl⟩
  · simp [getFirstLogIndex] at hfirst
    exact ⟨by omega, rfl, rfl⟩

theorem Snapshots.posted (h : Snapshots known c) {p : Packet n C D} (hp : Posted c a p) :
    ∀ args ∈ p.body.snapshotArgs, known args.lastIncludedIndex args.data.bytes := by
  intro args hargs
  cases hp with
  | @request i server r hlead hne hr =>
    cases hreq : r.2 with
    | appendEntries args' =>
      rw [hreq] at hargs
      cases hargs
    | installSnapshot args' =>
      rw [hreq] at hargs
      cases hargs
      obtain ⟨hpos, hindex, hdata⟩ := Raft.broadcastTo_snapshot hr hreq
      rw [hindex, hdata]
      exact h.persisters i hpos
  | requestVote => cases hargs
  | requestVoteReply => cases hargs
  | appendEntriesReply => cases hargs
  | installSnapshotReply => cases hargs
  | sent => cases hargs

theorem Snapshots.step (h : Snapshots known c) (helect : ElectionInv c) (hs : c.step a = some c')
    (hnew : ∀ i index bytes, a = .snapshot i index bytes → (c.node i).rf.lastIncludedIndex < index →
      known index bytes) : Snapshots known c' where
  persisters v hpos := by
    have horigin := Origin.of_step helect hs v
    by_cases ha : ∃ index bytes, a = .snapshot v index bytes
    · obtain ⟨index, bytes, rfl⟩ := ha
      obtain ⟨-, rfl⟩ := Cluster.step_snapshot hs
      simp only [Cluster.setRf, Cluster.setNode, Function.update_self] at hpos ⊢
      rcases (c.node v).rf.snapshot_cases index bytes with
        ⟨-, he⟩ | ⟨hlt, e, -, he⟩ | ⟨hlt, -, he⟩ <;> rw [he] at hpos ⊢
      · exact h.persisters v hpos
      · exact hnew v index bytes rfl hlt
      · exact hnew v index bytes rfl hlt
    · obtain ⟨hindex, hsnapshot⟩ | ⟨k, p, args, -, hp, -, hbody, hindex, hsnapshot⟩ :=
        horigin.snapshot_cases fun index bytes hsnap => ha ⟨index, bytes, hsnap⟩
      · rw [hindex] at hpos ⊢
        rw [hsnapshot]
        exact h.persisters v hpos
      · rw [hindex, hsnapshot]
        exact h.packets p (List.mem_of_getElem? hp) args (snapshotArgs_eq hbody)
  packets p hp args hargs := by
    rcases posted_of_step hs hp with hp | hp
    · exact h.packets p hp args hargs
    · exact h.posted hp args hargs
  sending v x hx data term i hm := by
    rcases (Passed.of_step hs v).sending x hx with hx | hx
    · exact h.sending v x hx data term i hm
    · generalize x.msg = m at hx hm
      cases hx with
      | pick _ hr =>
        obtain ⟨-, -, entry, -, rfl⟩ := (c.node v).rf.applier_cases hr
        cases hm
      | install _ hp _ hbody =>
        cases hm
        exact h.packets _ (List.mem_of_getElem? hp) _ (snapshotArgs_eq hbody)
  received v m hmem data term i hm := by
    rcases (Passed.of_step hs v).received m hmem with hmem | ⟨x, hx, rfl⟩
    · exact h.received v m hmem data term i hm
    · exact h.sending v x hx data term i hm

end Snapshots

/-- The cluster with its abstract record, and with the messages to the services in order. -/
structure Grounded (c : Cluster n C D) (s : TermLeader.State (Fin n) (Entry C)) : Prop where
  refines : Refines c s
  elect : ElectionInv c
  messages : Messages c s
  ordered : ∀ i, Ordered (c.node i)

theorem grounded_init : Grounded (Cluster.init n C D) (TermLeader.initial (Fin n) (Entry C)) where
  refines := refines_init
  elect := .init
  messages := messages_init
  ordered _ := .nil _

theorem Grounded.step {s : TermLeader.State (Fin n) (Entry C)} (h : Grounded c s)
    (hsound : SoundDelivery c a) (horder : InOrder c a) (hs : c.step a = some c') :
    ∃ s', Follows s s' ∧ Grounded c' s' := by
  obtain ⟨s', hf, hr⟩ := h.refines.step h.elect hsound hs
  refine ⟨s', hf, hr, h.elect.step hsound.voteKept hs, ?_, ordered_step h.elect h.ordered horder hs⟩
  exact h.messages.step h.refines (hf.extends h.refines.inv) hs

end DistributedLabs.Raft1
