import DistributedLabs.RaftRefinement

/-!
# The steps of a `raft1` cluster as steps of the protocol

One lemma for each kind of step. Elections and votes are the protocol's `stand`,
`grant` and `elect`, `Start` is its `append`, an accepted `AppendEntries` or
`InstallSnapshot` is its `adopt`, and everything else is at most a later term.
-/

namespace DistributedLabs.Raft1
open TransitionRuns MajorityQuorums TermLogs TermLeader

variable {n : ℕ} {C D : Type} {s : TermLeader.State (Fin n) (Entry C)} {c : Cluster n C D}

/-- The cluster may go on as the protocol does. -/
def Simulated (s : TermLeader.State (Fin n) (Entry C)) (c' : Cluster n C D) : Prop :=
  ∃ s', Follows s s' ∧ Refines c' s'

theorem mem_of_lost {α : Type*} {l : List α} {k : ℕ} {P : α → Prop} :
    ∀ x ∈ l.eraseIdx k, x ∈ l ∨ P x := fun _ hx => Or.inl (List.mem_of_mem_eraseIdx hx)

theorem mem_of_sent {α : Type*} {l r : List α} {P : α → Prop} (hl : ∀ x ∈ l, x ∈ r ∨ P x) {y : α}
    (hy : P y) : ∀ x ∈ l ++ [y], x ∈ r ∨ P x := by
  intro x hx
  rcases List.mem_append.mp hx with hx | hx
  · exact hl x hx
  · cases List.mem_singleton.mp hx
    exact Or.inr hy

/-- A server goes to a later term, and at most answers. -/
theorem Refines.bumped {c' : Cluster n C D} (h : Refines c s) {i : Fin n} {T : ℕ}
    (hT : (c.node i).rf.currentTerm ≤ T)
    (hnode : c'.node = Function.update c.node i { c.node i with rf := (c.node i).rf.stepDown T })
    (hgranted : c'.granted = c.granted) (helected : c'.elected = c.elected)
    (happlied : c'.applied = c.applied)
    (hnet : ∀ p ∈ c'.net, p ∈ c.net ∨ PacketOk (s.bump i T) c'.compacted p) : Simulated s c' := by
  have hrep := h.node i
  have hstep : Follows s (s.bump i T) := Or.inr (.bump _ _ (hrep.term.le.trans hT))
  refine ⟨_, hstep, h.update hstep hnode (hrep.stepDown h.inv hT)
    (fun j hj => ⟨Function.update_of_ne hj _ _, rfl⟩) le_rfl ?_ ?_ hnet
    (fun x hx => Or.inl hx) ?_⟩
  · rw [hgranted]
    exact h.vote
  · rw [helected]
    exact h.leader
  · rw [happlied]
    exact fun a ha => Or.inl ha

theorem Refines.unmoved {c' : Cluster n C D} (h : Refines c s) {i : Fin n} {nd : Node n C D}
    (hnode : c'.node = Function.update c.node i nd) (hrep : Represents s i nd)
    (hlii : nd.rf.lastIncludedIndex = (c.node i).rf.lastIncludedIndex)
    (hsending : nd.sending = (c.node i).sending) (hgranted : c'.granted = c.granted)
    (helected : c'.elected = c.elected) (happlied : c'.applied = c.applied)
    (hnet : ∀ p ∈ c'.net, p ∈ c.net ∨ PacketOk s c'.compacted p) : Simulated s c' := by
  refine ⟨s, Or.inl rfl, h.stutter hnode hrep hlii.ge hgranted helected hnet ?_ ?_⟩
  · rw [hsending]
    exact fun x hx => Or.inl hx
  · rw [happlied]
    exact fun a ha => Or.inl ha

/-- The record of votes with one more vote in it. -/
theorem Refines.vote_cast {s' : TermLeader.State (Fin n) (Entry C)} (h : Refines c s)
    (hext : Extends s s') {v x : Fin n} {T : ℕ} (hv : s'.vote = set₂ s.vote v T (some x))
    (w : Fin n) (U : ℕ) (y : Fin n) :
    s'.vote w U = some y ↔ (w, U, y) ∈ (v, T, x) :: c.granted := by
  constructor
  · intro hw
    by_cases hsame : w = v ∧ U = T
    · obtain ⟨rfl, rfl⟩ := hsame
      rw [hv, set₂_self, Option.some.injEq] at hw
      exact hw ▸ List.mem_cons_self
    · rw [hv, set₂_of_ne _ _ hsame] at hw
      exact List.mem_cons_of_mem _ ((h.vote w U y).mp hw)
  · intro hg
    rcases List.mem_cons.mp hg with he | hg
    · cases he
      rw [hv]
      exact set₂_self ..
    · exact hext.vote w U y ((h.vote w U y).mpr hg)

theorem Refines.startElection (h : Refines c s) (i : Fin n) :
    Simulated s (c.startElection i) := by
  have hrep := h.node i
  have hlt : s.term i < (c.node i).rf.currentTerm + 1 := Nat.lt_succ_of_le hrep.term.le
  have hstep : TermLeader.Step Entry.term s (s.stand i ((c.node i).rf.currentTerm + 1)) :=
    .stand i _ hlt
  have hext := hstep.extends h.inv
  have hwin : (c.node i).rf.startElection.1.Windowed ∧
      (c.node i).rf.startElection.1.fullLog = (c.node i).rf.fullLog :=
    hrep.window.of_sameLog rfl rfl rfl rfl hrep.window.reached
  have hcand : (s.stand i ((c.node i).rf.currentTerm + 1)).candLog i
      ((c.node i).rf.currentTerm + 1) = (c.node i).rf.startElection.1.fullLog := by
    rw [State.stand_candLog, set₂_self, hwin.2, hrep.log]
  refine ⟨_, Or.inr hstep, h.update (Or.inr hstep) rfl ?_
    (fun j hj => ⟨Function.update_of_ne hj _ _, rfl⟩) le_rfl (h.vote_cast hext rfl) h.leader ?_
    (fun x hx => Or.inl hx) (fun a ha => Or.inl ha)⟩
  · have hset : Settled (s.stand i ((c.node i).rf.currentTerm + 1))
        { c.node i with rf := (c.node i).rf.startElection.1 } :=
      hrep.settled.sameLog h.inv hext (Nat.le_succ _) hwin.2 rfl rfl rfl
    exact ⟨hwin.1, by simp; rfl, hrep.log.trans hwin.2.symm,
      fun _ => ⟨set₂_self .., fun _ => hcand⟩, nofun, nofun, nofun,
      ⟨hset.commitIndex, hset.lastApplied, hset.lastIncludedIndex, hset.received, hset.sending⟩⟩
  · intro p hp
    rcases List.mem_append.mp hp with hp | hp
    · exact Or.inl hp
    · obtain ⟨server, -, rfl⟩ := List.mem_map.mp hp
      refine Or.inr ⟨set₂_self .., ?_, ?_⟩
      · exact hwin.1.getLastLogIndex_eq.trans (congrArg List.length hcand).symm
      · exact hwin.1.lastLogTerm_eq.trans
          (congrArg (fun l => (lastTerm Entry.term l : ℤ)) hcand).symm

theorem Refines.requestVote {k : ℕ} {p : Packet n C D} {args : RequestVoteArgs n}
    (h : Refines c s) (helect' : ElectionInv (c.deliver p (c.net.eraseIdx k)))
    (hcaller : args.candidateId = p.caller) (hp : c.net[k]? = some p)
    (hbody : p.body = .requestVote args) : Simulated s (c.deliver p (c.net.eraseIdx k)) := by
  have hrep := h.node p.callee
  have hok := h.packets p (List.mem_of_getElem? hp)
  simp only [PacketOk, hbody] at hok
  obtain ⟨hstands, hlen, hlast⟩ := hok
  simp only [Cluster.deliver, hbody] at helect' ⊢
  rcases (c.node p.callee).rf.requestVote_cases args with
    ⟨-, he⟩ | ⟨hle, he⟩ | ⟨hle, -, hflag, he⟩ <;> simp only [he] at helect' ⊢
  · exact h.unmoved rfl hrep rfl rfl rfl rfl rfl (mem_of_sent mem_of_lost trivial)
  · rcases (c.node p.callee).rf.observe_eq_or args.term with ho | ⟨hlt, ho⟩ <;> rw [ho]
    · exact h.unmoved rfl hrep rfl rfl rfl rfl rfl (mem_of_sent mem_of_lost trivial)
    · exact h.bumped hle rfl rfl rfl rfl (mem_of_sent mem_of_lost trivial)
  · have hnew : (p.callee, args.term, p.caller) ∈ (p.callee, args.term, args.candidateId) ::
        c.granted := by
      rw [hcaller]
      exact List.mem_cons_self
    have hfree : s.vote p.callee args.term = none ∨
        s.vote p.callee args.term = some p.caller := by
      cases hv : s.vote p.callee args.term with
      | none => exact Or.inl rfl
      | some x =>
        have hx := List.mem_cons_of_mem (p.callee, args.term, args.candidateId)
          ((h.vote _ _ _).mp hv)
        exact Or.inr (congrArg some (helect'.once _ _ _ _ hx hnew))
    have hrecent : UpToDate Entry.term (s.candLog p.caller args.term) (s.log p.callee) := by
      rw [Raft.VoteFlag, hrep.window.lastLogTerm_eq, hrep.window.getLastLogIndex_eq, hlen, hlast,
        ← hrep.log] at hflag
      unfold UpToDate
      omega
    have hstep : TermLeader.Step Entry.term s (s.grant p.callee p.caller args.term) :=
      .grant _ _ _ (hrep.term.le.trans hle) hfree hstands hrecent
    have hext := hstep.extends h.inv
    have hwin : ((c.node p.callee).rf.castVote args).Windowed ∧
        ((c.node p.callee).rf.castVote args).fullLog = (c.node p.callee).rf.fullLog :=
      hrep.window.of_sameLog rfl rfl rfl rfl hrep.window.reached
    refine ⟨_, Or.inr hstep, h.update (Or.inr hstep) rfl ?_
      (fun j hj => ⟨Function.update_of_ne hj _ _, rfl⟩) le_rfl ?_ h.leader
      (mem_of_sent mem_of_lost trivial) (fun x hx => Or.inl hx) (fun a ha => Or.inl ha)⟩
    · exact .of_follower rfl hwin.1 (by simp; rfl) (hrep.log.trans hwin.2.symm)
        (hrep.settled.sameLog h.inv hext hle hwin.2 rfl rfl rfl)
    · simp only [if_true, hcaller]
      exact h.vote_cast hext rfl

/-- The winner of a term, with the votes the cluster's history has. -/
theorem Refines.elect {c' : Cluster n C D} {v : Fin n} {nd : Node n C D} (h : Refines c s)
    (helect : ElectionInv c) (helect' : ElectionInv c')
    (hcand : (c.node v).rf.state = .candidate) (hnode : c'.node = Function.update c.node v nd)
    (hrf : nd.rf = (c.node v).rf.becomeLeader) (hsending : nd.sending = (c.node v).sending)
    (hreceived : nd.received = (c.node v).received) (hgranted : c'.granted = c.granted)
    (helected : c'.elected = (v, (c.node v).rf.currentTerm) :: c.elected)
    (hnet : ∀ p ∈ c'.net, p ∈ c.net) (happlied : c'.applied = c.applied) : Simulated s c' := by
  have hrep := h.node v
  obtain ⟨hvote, hstood⟩ := hrep.stood hcand
  have hwon : (v, (c.node v).rf.currentTerm) ∈ c'.elected := helected ▸ List.mem_cons_self
  have hvacant : s.leader (c.node v).rf.currentTerm = none := by
    refine Option.eq_none_iff_forall_not_mem.mpr fun x hx => ?_
    have hx' := (h.leader x _).mp hx
    have hxv : x = v := helect'.one_leader (helected ▸ List.mem_cons_of_mem _ hx') hwon
    exact (helect.counted v hcand).1 (hxv ▸ hx')
  obtain ⟨Q, hQ, -, hvotes⟩ := helect'.won v _ hwon
  have hstep : TermLeader.Step Entry.term s (s.elect v (c.node v).rf.currentTerm) :=
    .elect v _ Q hQ (fun u hu => (h.vote _ _ _).mpr (hgranted ▸ hvotes u hu)) hvote hrep.term
      (hrep.log.trans (hstood hvacant).symm) hvacant
  have hext := hstep.extends h.inv
  have hwin : (c.node v).rf.becomeLeader.Windowed ∧
      (c.node v).rf.becomeLeader.fullLog = (c.node v).rf.fullLog :=
    hrep.window.of_sameLog rfl rfl rfl rfl hrep.window.reached
  have hset : Settled (s.elect v (c.node v).rf.currentTerm)
      { c.node v with rf := (c.node v).rf.becomeLeader } :=
    hrep.settled.sameLog h.inv hext le_rfl hwin.2 rfl rfl rfl
  have hlead : Represents (s.elect v (c.node v).rf.currentTerm) v
      { c.node v with rf := (c.node v).rf.becomeLeader } := by
    refine ⟨hwin.1, hrep.term, hrep.log.trans hwin.2.symm, nofun,
      fun _ => Function.update_self .., fun _ => ?_, fun _ p hp => Or.inl ?_, hset⟩
    · have hacked : (s.elect v (c.node v).rf.currentTerm).acked v
          (c.node v).rf.becomeLeader.currentTerm = (s.log v).length := set₂_self ..
      rw [hacked, hrep.log, ← hrep.window.getLastLogIndex_eq]
      simp [Raft.becomeLeader, helect.me v]
    · simp [Raft.becomeLeader, helect.me v, hp]
  refine ⟨_, Or.inr hstep, h.update (Or.inr hstep) hnode (hlead.of_rf hrf ?_ ?_)
    (fun j _ => ⟨rfl, rfl⟩) (hrf ▸ le_rfl) (hgranted ▸ h.vote) ?_ (fun p hp => Or.inl (hnet p hp))
    (fun x hx => Or.inl (hsending ▸ hx)) (fun a ha => Or.inl (happlied ▸ ha))⟩
  · exact fun m hm => Or.inl (hreceived ▸ hm)
  · exact fun x hx => Or.inl (hsending ▸ hx)
  · intro w T
    rw [helected, State.elect_leader]
    by_cases hT : T = (c.node v).rf.currentTerm
    · subst hT
      have hnot : (w, (c.node v).rf.currentTerm) ∉ c.elected := fun hw => by
        rw [(h.leader w _).mpr hw] at hvacant
        cases hvacant
      simp [hnot, eq_comm]
    · simp [hT, h.leader w T]

theorem Refines.requestVoteReply {k : ℕ} {p : Packet n C D} {args : RequestVoteArgs n}
    {r : RequestVoteReply} (h : Refines c s) (helect : ElectionInv c)
    (helect' : ElectionInv (c.deliver p (c.net.eraseIdx k)))
    (hbody : p.body = .requestVoteReply args r) :
    Simulated s (c.deliver p (c.net.eraseIdx k)) := by
  have hrep := h.node p.caller
  simp only [Cluster.deliver, hbody] at helect' ⊢
  by_cases halive : (c.node p.caller).incarnation = p.incarnation
  case neg =>
    rw [if_neg halive]
    exact ⟨s, Or.inl rfl, h.lose k⟩
  rw [if_pos halive] at helect' ⊢
  rcases (c.node p.caller).handleRequestVoteReply_cases args r with
    hnd | ⟨hlt, hnd⟩ | ⟨hcand, -, -, hnd | ⟨-, hnd⟩⟩ <;> simp only [hnd] at helect' ⊢
  · exact h.unmoved rfl hrep rfl rfl rfl (if_neg fun hl => hl.2 hl.1) rfl mem_of_lost
  · exact h.bumped hlt.le rfl rfl (by simp) rfl mem_of_lost
  · exact h.unmoved rfl (hrep.of_rf rfl (fun m hm => Or.inl hm) fun x hx => Or.inl hx) rfl rfl rfl
      (if_neg fun hl => hl.2 hl.1) rfl mem_of_lost
  · exact h.elect helect helect' hcand rfl rfl rfl rfl rfl (if_pos ⟨rfl, by simp [hcand]⟩)
      (fun q hq => List.mem_of_mem_eraseIdx hq) rfl

/-- The log of a leader is the leader log of its term. -/
theorem Refines.leaderLog_eq (h : Refines c s) {v : Fin n} (hl : (c.node v).rf.state = .leader) :
    s.leaderLog (c.node v).rf.currentTerm = (c.node v).rf.fullLog := by
  have hrep := h.node v
  rw [← h.inv.leader_log _ v (hrep.leads hl) hrep.term, hrep.log]

theorem Refines.start (h : Refines c s) (helect : ElectionInv c) (i : Fin n)
    (command : Option C) : Simulated s (c.setRf i ((c.node i).rf.start command).1) := by
  have hrep := h.node i
  by_cases hl : (c.node i).rf.state = .leader
  case neg =>
    rw [(c.node i).rf.start_of_not_leader hl]
    exact h.unmoved rfl hrep rfl rfl rfl rfl rfl fun p hp => Or.inl hp
  rw [(c.node i).rf.start_of_leader hl]
  set T := (c.node i).rf.currentTerm with hT
  have hstep : TermLeader.Step Entry.term s (s.append i T ⟨T, command⟩) :=
    .append i T _ (hrep.leads hl) hrep.term rfl
  have hext := hstep.extends h.inv
  obtain ⟨hwin, hlog⟩ := hrep.window.appendOwn command
  have hkeep : ∀ k, Final s (c.node i).rf k →
      Final (s.append i T ⟨T, command⟩) ((c.node i).rf.appendOwn command) k := by
    intro k hk
    apply Chosen.congr (Chosen.mono h.inv hext hk)
    rw [hlog, List.take_append_of_le_length hk.reaches]
  have hset := hrep.settled
  refine ⟨_, Or.inr hstep, h.update (Or.inr hstep) rfl ?_ (fun j hj => ⟨rfl, ?_⟩) le_rfl h.vote
    h.leader (fun p hp => Or.inl hp) (fun x hx => Or.inl hx) (fun a ha => Or.inl ha)⟩
  · refine ⟨hwin, hrep.term, ?_, fun hst => ?_, fun _ => hrep.leads hl, fun _ => ?_,
      fun _ p hp => ?_, hset.setRf hkeep (fun m hm => hm.mono h.inv hext)
        (hkeep _ hset.commitIndex) (hkeep _ hset.lastApplied) (hkeep _ hset.lastIncludedIndex)⟩
    · rw [hlog, ← hrep.log]
      exact Function.update_self ..
    · exact absurd (hl.symm.trans hst) (by simp)
    · have hacked : (s.append i T ⟨T, command⟩).acked i
          ((c.node i).rf.appendOwn command).currentTerm =
            (s.log i ++ [(⟨T, command⟩ : Entry C)]).length := set₂_self ..
      have hle := (hrep.own hl).trans (h.inv.acked_le i _)
      rw [h.leaderLog_eq hl, ← hrep.log] at hle
      rw [hacked, List.length_append]
      simpa [Raft.appendOwn, helect.me i] using hle
    · have hsame : ((c.node i).rf.appendOwn command).matchIndex p = (c.node i).rf.matchIndex p := by
        simp [Raft.appendOwn, helect.me i, hp]
      refine (hrep.matched hl p hp).imp (fun hm => ?_) fun hm => ?_
      · exact hsame.le.trans (hm.trans (hext.acked _ _))
      · exact hsame.le.trans hm
  · exact Function.update_of_ne hj _ _

/-- Other volatile state, with what is said of it proved anew. -/
theorem Represents.tune {v : Fin n} {nd : Node n C D} {rf : Raft n C D} (h : Represents s v nd)
    (hsame : Raft.SameStable nd.rf rf) (hstate : rf.state = nd.rf.state)
    (happlied : rf.lastApplied = nd.rf.lastApplied) (hcommit : Final s nd.rf rf.commitIndex)
    (hown : nd.rf.state = .leader → rf.matchIndex v ≤ s.acked v nd.rf.currentTerm)
    (hmatched : nd.rf.state = .leader → ∀ p, p ≠ v →
      rf.matchIndex p ≤ s.acked p nd.rf.currentTerm ∨ rf.matchIndex p ≤ nd.rf.lastIncludedIndex) :
    Represents s v { nd with rf := rf } := by
  obtain ⟨hwin, hlog⟩ := h.window.of_sameLog hsame.logs hsame.lastIncludedIndex
    hsame.lastIncludedTerm (congrArg Persister.snapshot hsame.persister)
    (happlied ▸ h.window.reached)
  have hfinal : ∀ k, Final s nd.rf k → Final s rf k := by
    intro k hk
    unfold Final
    rw [hlog, hsame.currentTerm]
    exact hk
  refine ⟨hwin, ?_, h.log.trans hlog.symm, ?_, ?_, ?_, ?_,
    h.settled.setRf hfinal (fun _ hm => hm) (hfinal _ hcommit) ?_ ?_⟩
  · exact h.term.trans hsame.currentTerm.symm
  · simpa only [hsame.currentTerm, hstate, hlog] using h.stood
  · simpa only [hsame.currentTerm, hstate] using h.leads
  · simpa only [hsame.currentTerm, hstate] using hown
  · simpa only [hsame.currentTerm, hstate, hsame.lastIncludedIndex] using hmatched
  · rw [happlied]
    exact hfinal _ h.settled.lastApplied
  · rw [hsame.lastIncludedIndex]
    exact hfinal _ h.settled.lastIncludedIndex

theorem Refines.broadcast (h : Refines c s) (helect : ElectionInv c) {i server : Fin n}
    (hl : (c.node i).rf.state = .leader) (hne : server ≠ i)
    {r : Raft n C D × Raft.Request n C D} (hr : (c.node i).rf.broadcastTo server = some r)
    {body : Rpc n C D}
    (hbody : body = match r.2 with
      | .appendEntries args => .appendEntries args
      | .installSnapshot args => .installSnapshot args) :
    Refines { c.setRf i r.1 with
      net := c.net ++ [⟨i, server, (c.node i).incarnation, body⟩] } s := by
  have hrep := h.node i
  have hwin := hrep.window
  have hL := h.leaderLog_eq hl
  obtain ⟨next, hrf, hreq⟩ := (c.node i).rf.broadcastTo_cases hr
  rw [hrf]
  refine h.stutter rfl (hrep.tune ⟨rfl, rfl, rfl, rfl, rfl, rfl, rfl⟩ rfl rfl
    hrep.settled.commitIndex hrep.own hrep.matched) le_rfl rfl rfl
    (mem_of_sent (fun p hp => Or.inl hp) ?_) (fun x hx => Or.inl hx) (fun a ha => Or.inl ha)
  rcases hreq with ⟨hlo, hhi, hreq⟩ | hreq <;> rw [hbody, hreq]
  · rw [hwin.getLastLogIndex_eq] at hhi
    obtain ⟨k, hk⟩ : ∃ k, next server = (c.node i).rf.lastIncludedIndex + k + 1 :=
      ⟨next server - 1 - (c.node i).rf.lastIncludedIndex, by omega⟩
    refine ⟨hne, helect.me i ▸ hrep.leads hl, ?_⟩
    simp only [hk, Nat.add_sub_cancel,
      show (c.node i).rf.lastIncludedIndex + k + 1 - (c.node i).rf.lastIncludedIndex = k + 1 by omega,
      ← hwin.drop_fullLog k]
    refine ⟨?_, ?_, ?_, ?_⟩
    · simp only [hL, List.length_take, List.length_drop]
      omega
    · simp only [hL, List.take_eq_take_iff, List.length_take, List.length_drop]
      omega
    · rw [hL]
      exact hwin.getLogTerm_eq (Nat.le_add_right _ _) (by omega)
    · rw [hL]
      exact hrep.settled.commitIndex
  · refine ⟨hne, hrep.leads hl, ⟨?_, ?_, ?_⟩, ?_⟩
    · exact (hL ▸ hwin.take_lastIncludedIndex).symm
    · exact (hL ▸ hwin.termAt_lastIncludedIndex).symm
    · exact hL ▸ hrep.settled.lastIncludedIndex
    · simp [Cluster.compacted, Cluster.setRf, Cluster.setNode]

theorem Refines.take_eq_of_termAt (h : Refines c s) {v l₀ : Fin n} {T i : ℕ}
    (hc : s.leader T = some l₀) (hi : i ≤ (c.node v).rf.fullLog.length)
    (hi' : i ≤ (s.leaderLog T).length)
    (ht : termAt Entry.term (c.node v).rf.fullLog i = termAt Entry.term (s.leaderLog T) i) :
    (c.node v).rf.fullLog.take i = (s.leaderLog T).take i := by
  have hmatch := (h.inv.log_sourced v).matching (h.inv.leader_sourced T l₀ hc)
  rw [(h.node v).log] at hmatch
  exact hmatch.take_eq_of_termAt hi hi' ht

theorem Refines.adopt {c' : Cluster n C D} {v l₀ : Fin n} {rf : Raft n C D} {nd : Node n C D}
    {T k : ℕ} (h : Refines c s) (hc : s.leader T = some l₀) (hother : v ≠ l₀)
    (hle : (c.node v).rf.currentTerm ≤ T) (hk : k ≤ (s.leaderLog T).length)
    (hagree : rf.fullLog.take k = (s.leaderLog T).take k)
    (horigin : rf.fullLog = (c.node v).rf.fullLog ∨ ∃ m, rf.fullLog = (s.leaderLog T).take m)
    (hkept : Retains (s.leaderLog T) (c.node v).rf.fullLog rf.fullLog)
    (hwin : rf.Windowed) (hterm : rf.currentTerm = T)
    (hrole : rf.state = .follower ∨ rf.state = .candidate ∧
      (c.node v).rf.state = .candidate ∧ (c.node v).rf.currentTerm = T)
    (hlii : (c.node v).rf.lastIncludedIndex ≤ rf.lastIncludedIndex)
    (hfinal : ∀ j, j = rf.commitIndex ∨ j = rf.lastApplied ∨ j = rf.lastIncludedIndex →
      Final s (c.node v).rf j ∨ j ≤ k ∧ Chosen Entry.term s T j (s.leaderLog T))
    (hnode : c'.node = Function.update c.node v nd) (hrf : nd.rf = rf)
    (hreceived : nd.received = (c.node v).received)
    (hsending : ∀ x ∈ nd.sending, x ∈ (c.node v).sending ∨
      (x.msg.index ≤ k ∧ Chosen Entry.term s T x.msg.index (s.leaderLog T) ∧ Told s x.msg) ∧
      ∀ call ∈ x.call, PacketOk (s.adopt v T rf.fullLog k) c'.compacted (call.reply v))
    (hgranted : c'.granted = c.granted) (helected : c'.elected = c.elected)
    (hnet : ∀ p ∈ c'.net, p ∈ c.net ∨ PacketOk (s.adopt v T rf.fullLog k) c'.compacted p)
    (happlied : c'.applied = c.applied) : Simulated s c' := by
  have hrep := h.node v
  have hstep : TermLeader.Step Entry.term s (s.adopt v T rf.fullLog k) := by
    refine .adopt v l₀ T rf.fullLog k (hrep.term.le.trans hle) hc hother hk hagree ?_ ?_
    · rw [hrep.log]
      exact horigin
    · rw [hrep.log]
      exact hkept
  have hext := hstep.extends h.inv
  have hkeep : ∀ j, Final s (c.node v).rf j → Final (s.adopt v T rf.fullLog k) rf j := by
    intro j hj
    unfold Final
    rw [hterm]
    exact ((Chosen.retained h.inv hj hle hc hkept).mono h.inv hext).of_term_le hle
  have hnew : ∀ j, j ≤ k → Chosen Entry.term s T j (s.leaderLog T) →
      Final (s.adopt v T rf.fullLog k) rf j := by
    intro j hj hch
    unfold Final
    rw [hterm]
    exact (hch.mono h.inv hext).congr (take_le_congr hagree hj)
  have hindex : ∀ j, j = rf.commitIndex ∨ j = rf.lastApplied ∨ j = rf.lastIncludedIndex →
      Final (s.adopt v T rf.fullLog k) rf j := fun j hj =>
    (hfinal j hj).elim (hkeep j) fun hj => hnew j hj.1 hj.2
  subst hrf
  have hsettled : Settled (s.adopt v T nd.rf.fullLog k) nd :=
    { commitIndex := hindex _ (Or.inl rfl)
      lastApplied := hindex _ (Or.inr (Or.inl rfl))
      lastIncludedIndex := hindex _ (Or.inr (Or.inr rfl))
      received := fun m hm => hkeep _ (hrep.settled.received m (hreceived ▸ hm))
      sending := fun x hx => by
        rcases hsending x hx with hx | ⟨⟨hle', hch, htold⟩, -⟩
        · exact ⟨hkeep _ (hrep.settled.sending x hx).1,
            (hrep.settled.sending x hx).2.mono h.inv hext⟩
        · exact ⟨hnew _ hle' hch, htold.mono h.inv hext⟩ }
  have hterm' : (s.adopt v T nd.rf.fullLog k).term v = nd.rf.currentTerm := by
    rw [hterm]
    exact Function.update_self ..
  have hlog' : (s.adopt v T nd.rf.fullLog k).log v = nd.rf.fullLog := Function.update_self ..
  have hlead' : (s.adopt v T nd.rf.fullLog k).leader nd.rf.currentTerm = some l₀ := by
    rw [hterm]
    exact hc
  have hrep' : Represents (s.adopt v T nd.rf.fullLog k) v nd := by
    rcases hrole with hf | ⟨hcand, hold, hsame⟩
    · exact .of_follower hf hwin hterm' hlog' hsettled
    · refine ⟨hwin, hterm', hlog', fun _ => ⟨?_, fun hnone => ?_⟩, ?_, ?_, ?_, hsettled⟩
      · rw [hterm, ← hsame]
        exact (hrep.stood hold).1
      · rw [hlead'] at hnone
        cases hnone
      all_goals
        intro hl
        rw [hcand] at hl
        cases hl
  exact ⟨_, Or.inr hstep, h.update (Or.inr hstep) hnode hrep'
    (fun j hj => ⟨Function.update_of_ne hj _ _, Function.update_of_ne hj _ _⟩) hlii
    (hgranted ▸ h.vote) (helected ▸ h.leader) hnet
    (fun x hx => (hsending x hx).imp_right fun hx => hx.2)
    (fun a ha => Or.inl (happlied ▸ ha))⟩

/-- What a server took over counts as acknowledged. -/
theorem le_acked_adopt (v : Fin n) (T : ℕ) (l : List (Entry C)) (k : ℕ) :
    k ≤ (s.adopt v T l k).acked v T := by
  rw [State.adopt_acked, set₂_self]
  exact le_max_right _ _

theorem Refines.appendEntries {k : ℕ} {p : Packet n C D} {args : AppendEntriesArgs n C}
    (h : Refines c s) (helect : ElectionInv c) (hp : c.net[k]? = some p)
    (hbody : p.body = .appendEntries args) : Simulated s (c.deliver p (c.net.eraseIdx k)) := by
  have hrep := h.node p.callee
  have hwin := hrep.window
  have hok := h.packets p (List.mem_of_getElem? hp)
  simp only [PacketOk, hbody] at hok
  obtain ⟨hne, hc, hargs⟩ := hok
  simp only [Cluster.deliver, hbody]
  rcases (c.node p.callee).rf.appendEntries_cases (helect.durable p.callee).logs_ne args with
    ⟨-, he⟩ | ⟨hle, i, t, he⟩ | ⟨hle, hlo, hhi, hprev, he⟩ <;> simp only [he]
  · exact h.unmoved rfl hrep rfl rfl rfl rfl rfl
      (mem_of_sent mem_of_lost ⟨hne, fun hsuccess => absurd hsuccess Bool.false_ne_true⟩)
  · exact h.bumped hle rfl rfl rfl rfl
      (mem_of_sent mem_of_lost ⟨hne, fun hsuccess => absurd hsuccess Bool.false_ne_true⟩)
  · obtain ⟨hwin', hlog⟩ := hwin.accept hlo
    rw [hwin.getLastLogIndex_eq] at hhi
    rw [hwin.getLogTerm_eq hlo hhi, hargs.prevLogTerm] at hprev
    have hreach := hargs.reaches
    have hpre := h.take_eq_of_termAt hc hhi (by omega) (by omega)
    have hmatch := (h.inv.log_sourced p.callee).matching (h.inv.leader_sourced _ _ hc)
    rw [hrep.log] at hmatch
    obtain ⟨hagree, horigin, hkept⟩ :=
      mergeAt_spec hmatch hhi hargs.entries hreach hpre
    rw [← hlog] at hagree horigin hkept
    refine h.adopt hc hne hle hreach hagree
      (horigin.imp_right fun hm => ⟨_, hm⟩) hkept hwin' rfl (Or.inl rfl) le_rfl ?_ rfl rfl rfl
      (fun x hx => Or.inl hx) rfl rfl
      (mem_of_sent mem_of_lost ⟨hne, fun _ => le_acked_adopt p.callee args.term _ _⟩) rfl
    rintro j (rfl | rfl | rfl)
    · have hcommit : ((c.node p.callee).rf.accept args).commitIndex =
          min args.leaderCommit (args.prevLogIndex + args.entries.length) := by
        simp only [Raft.accept, Raft.followCommit]
        split_ifs <;> omega
      rw [hcommit]
      exact Or.inr ⟨Nat.min_le_right _ _, hargs.leaderCommit.of_le (Nat.min_le_left _ _)⟩
    · exact Or.inl hrep.settled.lastApplied
    · exact Or.inl hrep.settled.lastIncludedIndex

/-- A snapshot that would be installed reaches behind the one the server has. -/
def SnapshotStands (c : Cluster n C D) (p : Packet n C D) : Prop :=
  ∀ args ∈ p.body.snapshotArgs, (c.node p.callee).rf.currentTerm ≤ args.term →
    (c.node p.callee).rf.commitIndex < args.lastIncludedIndex →
    (c.node p.callee).rf.lastIncludedIndex < args.lastIncludedIndex

instance (c : Cluster n C D) (p : Packet n C D) : Decidable (SnapshotStands c p) :=
  inferInstanceAs (Decidable (∀ args ∈ p.body.snapshotArgs, _))

/-- A server that observes a term has the log, the snapshot and the indices it had. -/
theorem observe_facts {rf : Raft n C D} (hwin : rf.Windowed) (T : ℕ) :
    (rf.observe T).Windowed ∧ (rf.observe T).fullLog = rf.fullLog ∧
      (rf.observe T).commitIndex = rf.commitIndex ∧ (rf.observe T).lastApplied = rf.lastApplied ∧
      (rf.observe T).lastIncludedIndex = rf.lastIncludedIndex ∧
      ((rf.observe T).state = .follower ∨ (rf.observe T).state = rf.state ∧
        (rf.currentTerm ≤ T → rf.currentTerm = T)) := by
  rcases rf.observe_eq_or T with he | ⟨-, he⟩ <;> rw [he]
  · refine ⟨hwin, rfl, rfl, rfl, rfl, Or.inr ⟨rfl, fun hle => ?_⟩⟩
    have hterm := rf.observe_currentTerm hle
    rwa [he] at hterm
  · obtain ⟨hwin', hlog⟩ := hwin.of_sameLog (show (rf.stepDown T).logs = rf.logs from rfl) rfl rfl
      rfl hwin.reached
    exact ⟨hwin', hlog, rfl, rfl, rfl, Or.inl rfl⟩

theorem Refines.role_of_observe (h : Refines c s) {v l₀ : Fin n} {T : ℕ}
    (hc : s.leader T = some l₀) (hother : v ≠ l₀) (hle : (c.node v).rf.currentTerm ≤ T) :
    ((c.node v).rf.observe T).state = .follower ∨ ((c.node v).rf.observe T).state = .candidate ∧
      (c.node v).rf.state = .candidate ∧ (c.node v).rf.currentTerm = T := by
  obtain ⟨-, -, -, -, -, hf | ⟨hst, hterm⟩⟩ := observe_facts (h.node v).window T
  · exact Or.inl hf
  · cases hrole : (c.node v).rf.state with
    | leader =>
      have hlead := (h.node v).leads hrole
      rw [hterm hle, hc, Option.some.injEq] at hlead
      exact absurd hlead.symm hother
    | follower => exact Or.inl (hst.trans hrole)
    | candidate => exact Or.inr ⟨hst.trans hrole, rfl, hterm hle⟩

/-- A final prefix is a prefix of every chosen prefix that reaches as far. -/
theorem Refines.take_of_final (h : Refines c s) {v : Fin n} {T j k : ℕ} {l : List (Entry C)}
    (hf : Final s (c.node v).rf j) (hl : Chosen Entry.term s T k l) (hkj : k ≤ j) :
    (c.node v).rf.fullLog.take k = l.take k :=
  Chosen.agree h.inv hf hl hkj le_rfl

/-- The log after an install is that of the leader up to the snapshot, and behind it what the server
had if it had the last entry of the snapshot. -/
theorem Refines.install_log (h : Refines c s) {v l₀ : Fin n} {args : InstallSnapshotArgs n C D}
    (hc : s.leader args.term = some l₀) (hargs : SnapshotOk s args)
    (hahead : (c.node v).rf.lastIncludedIndex < args.lastIncludedIndex) :
    ((c.node v).rf.install args).Windowed ∧
      ((c.node v).rf.install args).fullLog.take args.lastIncludedIndex =
        (s.leaderLog args.term).take args.lastIncludedIndex ∧
      (((c.node v).rf.install args).fullLog = (c.node v).rf.fullLog ∨
        ∃ m, ((c.node v).rf.install args).fullLog = (s.leaderLog args.term).take m) ∧
      Retains (s.leaderLog args.term) (c.node v).rf.fullLog
        ((c.node v).rf.install args).fullLog := by
  have hwin := (h.node v).window
  have hlen : args.data.entries.length = args.lastIncludedIndex := by
    rw [hargs.entries, List.length_take, min_eq_left hargs.final.reaches]
  have hterm : termAt Entry.term args.data.entries args.lastIncludedIndex =
      args.lastIncludedTerm := by
    rw [hargs.entries, termAt_take, hargs.lastIncludedTerm]
  by_cases hm : (c.node v).rf.matchLog args.lastIncludedIndex args.lastIncludedTerm
  · obtain ⟨hwin', hlog⟩ := hwin.install_matched hlen hterm hm
    obtain ⟨-, hhi, hat⟩ := hwin.matchLog_iff.mp hm
    have hpre := h.take_eq_of_termAt hc hhi hargs.final.reaches (hat.trans hargs.lastIncludedTerm)
    have hsame : ((c.node v).rf.install args).fullLog = (c.node v).rf.fullLog := by
      rw [hlog, hargs.entries, ← hpre, List.take_append_drop]
    exact ⟨hwin', by rw [hsame, hpre], Or.inl hsame, hsame ▸ Retains.refl _ _⟩
  · obtain ⟨hwin', hlog⟩ := Raft.Windowed.install_unmatched hlen hterm hm
    rw [hargs.entries] at hlog
    refine ⟨hwin', by rw [hlog, List.take_take, min_self], Or.inr ⟨_, hlog⟩, hlog ▸ ?_⟩
    -- a longer common prefix would have matched the snapshot
    refine Retains.of_take fun j hj hj' hcommon => ?_
    by_contra hlt
    refine hm (hwin.matchLog_iff.mpr ⟨hahead, by omega, ?_⟩)
    rw [hargs.lastIncludedTerm]
    exact termAt_congr _ (take_le_congr hcommon (by omega))

theorem Refines.installSnapshot {k : ℕ} {p : Packet n C D} {args : InstallSnapshotArgs n C D}
    (h : Refines c s) (hp : c.net[k]? = some p) (hbody : p.body = .installSnapshot args)
    (hstands : SnapshotStands c p) : Simulated s (c.deliver p (c.net.eraseIdx k)) := by
  have hrep := h.node p.callee
  have hwin := hrep.window
  have hok := h.packets p (List.mem_of_getElem? hp)
  simp only [PacketOk, hbody] at hok
  obtain ⟨hne, hc, hargs, hcomp⟩ := hok
  simp only [Cluster.deliver, hbody]
  have hcomp' : ∀ nd : Node n C D, args.lastIncludedIndex ≤
      (Function.update c.node p.callee nd p.caller).rf.lastIncludedIndex := by
    intro nd
    rw [Function.update_of_ne hne.symm]
    exact hcomp
  obtain ⟨howin, holog, hocommit, hoapplied, holii, -⟩ := observe_facts hwin args.term
  rcases (c.node p.callee).rf.installSnapshot_cases args with
    ⟨hlt, he⟩ | ⟨hle, hcov, he⟩ | ⟨hle, hnew, he⟩ <;> simp only [he]
  · refine h.unmoved rfl hrep rfl rfl rfl rfl rfl (mem_of_sent mem_of_lost ⟨hne, ?_, ?_⟩)
    · exact hcomp' _
    · exact Or.inr (hlt.trans_eq hrep.term.symm)
  · have hagree := h.take_of_final hrep.settled.commitIndex hargs.final hcov
    refine h.adopt hc hne hle hargs.final.reaches (by rw [holog, hagree]) (Or.inl holog)
      (holog ▸ Retains.refl _ _) howin (Raft.observe_currentTerm _ hle)
      (h.role_of_observe hc hne hle) holii.ge ?_ rfl rfl rfl (fun x hx => Or.inl hx) rfl rfl
      (mem_of_sent mem_of_lost ⟨hne, ?_, Or.inl (le_acked_adopt p.callee args.term _ _)⟩) rfl
    · rw [hocommit, hoapplied, holii]
      rintro j (rfl | rfl | rfl)
      · exact Or.inl hrep.settled.commitIndex
      · exact Or.inl hrep.settled.lastApplied
      · exact Or.inl hrep.settled.lastIncludedIndex
    · exact hcomp' _
  · have hahead := hstands args (by simp [hbody, Rpc.snapshotArgs]) hle hnew
    obtain ⟨hwin', hagree, horigin, hkept⟩ := h.install_log hc hargs hahead
    have hlii : (c.node p.callee).rf.lastIncludedIndex ≤
        ((c.node p.callee).rf.install args).lastIncludedIndex := hahead.le
    refine h.adopt hc hne hle hargs.final.reaches hagree horigin hkept hwin'
      (Raft.observe_currentTerm _ hle) (h.role_of_observe hc hne hle) hlii ?_ rfl rfl rfl ?_ rfl
      rfl mem_of_lost rfl
    · rintro j (rfl | rfl | rfl) <;> exact Or.inr ⟨le_rfl, hargs.final⟩
    · refine mem_of_sent (fun x hx => Or.inl hx) ⟨⟨le_rfl, hargs.final, ?_⟩, ?_⟩
      · exact ⟨_, _, hargs.final, hargs.entries⟩
      · rintro call hcall
        cases Option.mem_some.mp hcall
        exact ⟨hne, hcomp' _, Or.inl (le_acked_adopt p.callee args.term _ _)⟩

/-- A leader counts a successful reply only if it is to a request of its own term. -/
def ReplyStands (c : Cluster n C D) (p : Packet n C D) : Prop :=
  ∀ r ∈ p.body.appendReply, (c.node p.caller).incarnation = p.incarnation →
    (c.node p.caller).rf.state = .leader → r.2.success = true →
    r.2.term ≤ (c.node p.caller).rf.currentTerm →
    r.1.prevLogIndex + 1 = (c.node p.caller).rf.nextIndex p.callee →
    r.1.term = (c.node p.caller).rf.currentTerm

instance (c : Cluster n C D) (p : Packet n C D) : Decidable (ReplyStands c p) :=
  inferInstanceAs (Decidable (∀ r ∈ p.body.appendReply, _))

/-- What a leader finds to commit is final. -/
theorem Refines.final_commit (h : Refines c s) {v : Fin n} (rf : Raft n C D)
    (hl : (c.node v).rf.state = .leader) (hsame : Raft.SameStable (c.node v).rf rf)
    (hown : rf.matchIndex v ≤ s.acked v (c.node v).rf.currentTerm)
    (hmatched : ∀ p, p ≠ v → rf.matchIndex p ≤ s.acked p (c.node v).rf.currentTerm ∨
      rf.matchIndex p ≤ (c.node v).rf.lastIncludedIndex) {target : ℕ}
    (hmedian : ((List.ofFn rf.matchIndex).insertionSort (· ≤ ·))[(n - 1) / 2]? = some target)
    (hpos : rf.commitIndex < target) (hterm : rf.getLogTerm target = rf.currentTerm) :
    Final s (c.node v).rf target := by
  have hrep := h.node v
  have hread : rf.getLogTerm target = (c.node v).rf.getLogTerm target := by
    unfold Raft.getLogTerm Raft.getFirstLogIndex
    rw [hsame.lastIncludedIndex, hsame.logs]
  rw [hread, hsame.currentTerm] at hterm
  obtain ⟨hlo, hhi⟩ := hrep.window.le_of_getLogTerm_nonneg (hterm ▸ Int.natCast_nonneg _)
  rw [hrep.window.getLogTerm_eq hlo hhi] at hterm
  rcases hlo.eq_or_lt with heq | hlt
  · exact heq ▸ hrep.settled.lastIncludedIndex
  · have hL := h.leaderLog_eq hl
    have hcommitted : Committed Entry.term s (c.node v).rf.currentTerm target := by
      refine ⟨by omega, by rw [hL]; omega, _, majority_of_median hmedian, ?_⟩
      intro p hp
      have hle : target ≤ rf.matchIndex p := by simpa using hp
      rcases eq_or_ne p v with rfl | hpv
      · exact hle.trans hown
      · rcases hmatched p hpv with hm | hm
        · exact hle.trans hm
        · omega
    exact ⟨hhi, Or.inr ⟨_, target, le_rfl, le_rfl, hcommitted, by rw [hL]⟩⟩

theorem Refines.handleAppendEntriesReply {k : ℕ} {p : Packet n C D}
    {args : AppendEntriesArgs n C} {reply : AppendEntriesReply} (h : Refines c s)
    (hp : c.net[k]? = some p) (hbody : p.body = .appendEntriesReply args reply)
    (hstands : ReplyStands c p) : Simulated s (c.deliver p (c.net.eraseIdx k)) := by
  have hrep := h.node p.caller
  have hok := h.packets p (List.mem_of_getElem? hp)
  simp only [PacketOk, hbody] at hok
  simp only [Cluster.deliver, hbody]
  by_cases halive : (c.node p.caller).incarnation = p.incarnation
  case neg =>
    rw [if_neg halive]
    exact ⟨s, Or.inl rfl, h.lose k⟩
  rw [if_pos halive]
  rcases (c.node p.caller).rf.handleAppendEntriesReply_cases p.callee args reply with
    ⟨hlt, he⟩ | ⟨next, he⟩ | ⟨hterm, hnext, hsucc, he⟩ <;> rw [he]
  · exact h.bumped hlt.le rfl rfl rfl rfl mem_of_lost
  · exact h.unmoved rfl (hrep.tune ⟨rfl, rfl, rfl, rfl, rfl, rfl, rfl⟩ rfl rfl
      hrep.settled.commitIndex hrep.own hrep.matched) rfl rfl rfl rfl rfl mem_of_lost
  · have hmatched : (c.node p.caller).rf.state = .leader → ∀ q, q ≠ p.caller →
        ((c.node p.caller).rf.noteMatch p.callee args).matchIndex q ≤
          s.acked q (c.node p.caller).rf.currentTerm ∨
        ((c.node p.caller).rf.noteMatch p.callee args).matchIndex q ≤
          (c.node p.caller).rf.lastIncludedIndex := by
      intro hl q hq
      have hfresh := hstands (args, reply) (by simp [hbody, Rpc.appendReply]) halive hl hsucc hterm
        hnext
      rcases eq_or_ne q p.callee with rfl | hqc
      · rw [Raft.noteMatch_matchIndex, Function.update_self, ← hfresh]
        exact Or.inl (hok.2 hsucc)
      · rw [Raft.noteMatch_matchIndex, Function.update_of_ne hqc]
        exact hrep.matched hl q hq
    have hown : (c.node p.caller).rf.state = .leader →
        ((c.node p.caller).rf.noteMatch p.callee args).matchIndex p.caller ≤
          s.acked p.caller (c.node p.caller).rf.currentTerm := by
      rw [Raft.noteMatch_matchIndex, Function.update_of_ne hok.1.symm]
      exact hrep.own
    rcases ((c.node p.caller).rf.noteMatch p.callee args).commit_cases with
      hcom | ⟨hl, target, hmedian, hup, hat, hcom⟩ <;> rw [hcom]
    · exact h.unmoved rfl (hrep.tune ⟨rfl, rfl, rfl, rfl, rfl, rfl, rfl⟩ rfl rfl
        hrep.settled.commitIndex hown hmatched) rfl rfl rfl rfl rfl mem_of_lost
    · have hfinal := h.final_commit ((c.node p.caller).rf.noteMatch p.callee args) hl
        ⟨rfl, rfl, rfl, rfl, rfl, rfl, rfl⟩ (hown hl) (hmatched hl) hmedian hup hat
      exact h.unmoved rfl (hrep.tune ⟨rfl, rfl, rfl, rfl, rfl, rfl, rfl⟩ rfl rfl
        hfinal hown hmatched) rfl rfl rfl rfl rfl mem_of_lost

theorem Refines.handleInstallSnapshotReply {k : ℕ} {p : Packet n C D}
    {args : InstallSnapshotArgs n C D} {reply : InstallSnapshotReply} (h : Refines c s)
    (hp : c.net[k]? = some p) (hbody : p.body = .installSnapshotReply args reply) :
    Simulated s (c.deliver p (c.net.eraseIdx k)) := by
  have hrep := h.node p.caller
  have hok := h.packets p (List.mem_of_getElem? hp)
  simp only [PacketOk, hbody] at hok
  simp only [Cluster.deliver, hbody]
  by_cases halive : (c.node p.caller).incarnation = p.incarnation
  case neg =>
    rw [if_neg halive]
    exact ⟨s, Or.inl rfl, h.lose k⟩
  rw [if_pos halive]
  rcases (c.node p.caller).rf.handleInstallSnapshotReply_cases p.callee args reply with
    ⟨hlt, he⟩ | he | ⟨-, -, he⟩ <;> rw [he]
  · exact h.bumped hlt.le rfl rfl rfl rfl mem_of_lost
  · exact h.unmoved rfl hrep rfl rfl rfl rfl rfl mem_of_lost
  · refine h.unmoved rfl (hrep.tune ⟨rfl, rfl, rfl, rfl, rfl, rfl, rfl⟩ rfl rfl
      hrep.settled.commitIndex ?_ ?_) rfl rfl rfl rfl rfl mem_of_lost
    · simp only [Function.update_of_ne hok.1.symm]
      exact hrep.own
    · intro hl q hq
      rcases eq_or_ne q p.callee with rfl | hqc
      · simp only [Function.update_self]
        exact Or.inr hok.2.1
      · simp only [Function.update_of_ne hqc]
        exact hrep.matched hl q hq

theorem Refines.pick (h : Refines c s) {i : Fin n} {r : Raft n C D × ApplyMsg C D}
    (hr : (c.node i).rf.applier = some r) :
    Refines (c.setNode i { c.node i with
      rf := r.1, sending := (c.node i).sending ++ [⟨r.2, none⟩] }) s := by
  have hrep := h.node i
  have hwin := hrep.window
  obtain ⟨hgo, -, entry, hget, rfl⟩ := (c.node i).rf.applier_cases hr
  have hfinal : Final s (c.node i).rf ((c.node i).rf.lastApplied + 1) :=
    Chosen.of_le hrep.settled.commitIndex hgo
  have hreached := hwin.reached
  have hentry : (c.node i).rf.fullLog[(c.node i).rf.lastApplied]? = some entry := by
    obtain ⟨k, hk⟩ := Nat.exists_eq_add_of_le hreached
    rw [show (c.node i).rf.lastApplied + 1 - (c.node i).rf.lastIncludedIndex = k + 1 by omega,
      hwin.getElem?_slot k, ← hk] at hget
    exact hget
  have hnext : Represents s i
      { c.node i with rf := { (c.node i).rf with lastApplied := (c.node i).rf.lastApplied + 1 } } := by
    obtain ⟨hwin', -⟩ := hwin.of_sameLog
      (show ({ (c.node i).rf with lastApplied := (c.node i).rf.lastApplied + 1 } :
        Raft n C D).logs = (c.node i).rf.logs from rfl) rfl rfl rfl (by simp; omega)
    exact ⟨hwin', hrep.term, hrep.log, hrep.stood, hrep.leads, hrep.own, hrep.matched,
      hrep.settled.commitIndex, hfinal, hrep.settled.lastIncludedIndex, hrep.settled.received,
      hrep.settled.sending⟩
  have htold : Told s (.command entry.command ((c.node i).rf.lastApplied + 1)
      ((c.node i).rf.getLogTerm ((c.node i).rf.lastApplied + 1)) : ApplyMsg C D) :=
    ⟨_, _, entry, hfinal, Nat.succ_pos _, hentry, rfl⟩
  refine h.stutter rfl (hnext.of_rf rfl (fun m hm => Or.inl hm) ?_) le_rfl rfl rfl
    (fun p hp => Or.inl hp) ?_ (fun a ha => Or.inl ha)
  · exact mem_of_sent (fun x hx => Or.inl hx) ⟨hfinal, htold⟩
  · exact mem_of_sent (fun x hx => Or.inl hx) nofun

theorem Refines.send (h : Refines c s) {i : Fin n} {k : ℕ} {x : Sending n C D}
    (hx : (c.node i).sending[k]? = some x) :
    Refines { c.setNode i { c.node i with
        sending := (c.node i).sending.eraseIdx k
        received := (c.node i).received ++ [x.msg] } with
      net := c.net ++ (x.call.map (·.reply i)).toList
      applied := (i, x.msg) :: c.applied } s := by
  have hrep := h.node i
  have hmem := List.mem_of_getElem? hx
  obtain ⟨hfinal, htold⟩ := hrep.settled.sending x hmem
  refine h.stutter rfl (hrep.of_rf rfl (mem_of_sent (fun m hm => Or.inl hm) hfinal) mem_of_lost)
    le_rfl rfl rfl ?_ mem_of_lost ?_
  · intro p hp
    rcases List.mem_append.mp hp with hp | hp
    · exact Or.inl hp
    · obtain ⟨call, hcall, rfl⟩ := Option.map_eq_some_iff.mp (Option.mem_toList.mp hp)
      have hok := h.calls i x hmem call hcall
      refine Or.inr (hok.mono h.inv (Follows.extends (Or.inl rfl) h.inv) fun v => ?_)
      rcases eq_or_ne v i with rfl | hv
      · simp [Cluster.compacted, Cluster.setNode]
      · simp [Cluster.compacted, Cluster.setNode, hv]
  · intro a ha
    rcases List.mem_cons.mp ha with rfl | ha
    · exact Or.inr htold
    · exact Or.inl ha

theorem Refines.snapshot (h : Refines c s) {i : Fin n} {index : ℕ} (bytes : Option D)
    (hidx : index ∈ (c.node i).received.map ApplyMsg.index) :
    Refines (c.setRf i ((c.node i).rf.snapshot index bytes)) s := by
  have hrep := h.node i
  have hset := hrep.settled
  obtain ⟨m, hm, rfl⟩ := List.mem_map.mp hidx
  have hfinal := hset.received m hm
  obtain ⟨hwin, hlog, hlii⟩ := hrep.window.snapshot hfinal.reaches bytes
  have hrest : ((c.node i).rf.snapshot m.index bytes).currentTerm = (c.node i).rf.currentTerm ∧
      ((c.node i).rf.snapshot m.index bytes).state = (c.node i).rf.state ∧
      ((c.node i).rf.snapshot m.index bytes).matchIndex = (c.node i).rf.matchIndex ∧
      (((c.node i).rf.snapshot m.index bytes).commitIndex = (c.node i).rf.commitIndex ∨
        ((c.node i).rf.snapshot m.index bytes).commitIndex = m.index) ∧
      (((c.node i).rf.snapshot m.index bytes).lastApplied = (c.node i).rf.lastApplied ∨
        ((c.node i).rf.snapshot m.index bytes).lastApplied = m.index) := by
    rcases (c.node i).rf.snapshot_cases m.index bytes with ⟨-, he⟩ | ⟨-, e, -, he⟩ | ⟨-, -, he⟩ <;>
      rw [he]
    · exact ⟨rfl, rfl, rfl, Or.inl rfl, Or.inl rfl⟩
    all_goals exact ⟨rfl, rfl, rfl, max_choice _ _, max_choice _ _⟩
  obtain ⟨hterm, hstate, hmatch, hcommit, happlied⟩ := hrest
  have hkeep : ∀ k, Final s (c.node i).rf k →
      Final s ((c.node i).rf.snapshot m.index bytes) k := by
    intro k hk
    unfold Final
    rw [hlog, hterm]
    exact hk
  have hle : (c.node i).rf.lastIncludedIndex ≤
      ((c.node i).rf.snapshot m.index bytes).lastIncludedIndex := hlii ▸ le_max_left _ _
  refine h.stutter rfl ⟨hwin, hrep.term.trans hterm.symm, hrep.log.trans hlog.symm, ?_, ?_, ?_, ?_,
    hset.setRf hkeep (fun _ hm => hm) ?_ ?_ ?_⟩ hle rfl rfl (fun p hp => Or.inl hp)
    (fun x hx => Or.inl hx) (fun a ha => Or.inl ha)
  · simpa only [hterm, hstate, hlog] using hrep.stood
  · simpa only [hterm, hstate] using hrep.leads
  · simpa only [hterm, hstate, hmatch] using hrep.own
  · intro hl p hp
    simp only [hterm, hmatch]
    exact (hrep.matched (hstate.symm.trans hl) p hp).imp_right fun hm => hm.trans hle
  · rcases hcommit with he | he <;> rw [he]
    · exact hkeep _ hset.commitIndex
    · exact hkeep _ hfinal
  · rcases happlied with he | he <;> rw [he]
    · exact hkeep _ hset.lastApplied
    · exact hkeep _ hfinal
  · rw [hlii]
    rcases max_choice (c.node i).rf.lastIncludedIndex m.index with he | he <;> rw [he]
    · exact hkeep _ hset.lastIncludedIndex
    · exact hkeep _ hfinal

theorem Refines.restart (h : Refines c s) (helect : ElectionInv c) (i : Fin n) :
    Refines (c.setNode i
      (Node.boot i (c.node i).rf.persister ((c.node i).incarnation + 1))) s := by
  have hrep := h.node i
  have hmake := Raft.make_of_durable (helect.durable i)
  rw [helect.me i] at hmake
  obtain ⟨hwin, hlog⟩ := hrep.window.make (helect.durable i)
  rw [helect.me i] at hwin hlog
  have hlii : (Raft.make i (c.node i).rf.persister).lastIncludedIndex =
      (c.node i).rf.lastIncludedIndex := by rw [hmake]
  have hfinal : Final s (Raft.make i (c.node i).rf.persister)
      (c.node i).rf.lastIncludedIndex := by
    unfold Final
    rw [hlog, hmake]
    exact hrep.settled.lastIncludedIndex
  refine h.stutter rfl (.of_follower ?_ hwin ?_ (hrep.log.trans hlog.symm)
    ⟨?_, ?_, ?_, nofun, nofun⟩) hlii.ge rfl rfl (fun p hp => Or.inl hp) nofun
    (fun a ha => Or.inl ha)
  · exact congrArg Raft.state hmake
  · exact hrep.term.trans (congrArg Raft.currentTerm hmake).symm
  · exact (congrArg Raft.commitIndex hmake) ▸ hfinal
  · exact (congrArg Raft.lastApplied hmake) ▸ hfinal
  · exact hlii ▸ hfinal

/-- The conditions on one delivery. -/
structure Sound (c : Cluster n C D) (p : Packet n C D) : Prop where
  vote : VoteStands c p
  reply : ReplyStands c p
  snapshot : SnapshotStands c p

instance (c : Cluster n C D) (p : Packet n C D) : Decidable (Sound c p) :=
  decidable_of_iff (VoteStands c p ∧ ReplyStands c p ∧ SnapshotStands c p)
    ⟨fun h => ⟨h.1, h.2.1, h.2.2⟩, fun h => ⟨h.vote, h.reply, h.snapshot⟩⟩

/-- Every delivery meets the conditions. -/
def SoundDelivery (c : Cluster n C D) : Action n C D → Prop
  | .deliver k => ∀ p ∈ c.net[k]?, Sound c p
  | _ => True

instance (c : Cluster n C D) (a : Action n C D) : Decidable (SoundDelivery c a) :=
  match a with
  | .deliver k => inferInstanceAs (Decidable (∀ p ∈ c.net[k]?, Sound c p))
  | .startElection _ | .start _ _ | .broadcast _ _ | .drop _ | .pick _ | .send _ _
  | .snapshot _ _ _ | .restart _ => .isTrue trivial

theorem SoundDelivery.voteKept {a : Action n C D} (h : SoundDelivery c a) : VoteKept c a := by
  cases a with
  | deliver k => exact fun p hp => (h p hp).vote
  | _ => trivial

/-- Every step that meets the conditions is a step of the protocol or none. -/
theorem Refines.step {c' : Cluster n C D} {a : Action n C D} (h : Refines c s)
    (helect : ElectionInv c) (hsound : SoundDelivery c a) (hs : c.step a = some c') :
    Simulated s c' := by
  have helect' := helect.step hsound.voteKept hs
  cases a with
  | startElection i =>
    cases hs
    exact h.startElection i
  | start i command =>
    cases hs
    exact h.start helect i command
  | broadcast i server =>
    obtain ⟨r, hleader, hserver, hr, rfl⟩ := Cluster.step_broadcast hs
    exact ⟨s, Or.inl rfl, h.broadcast helect hleader hserver hr rfl⟩
  | deliver k =>
    obtain ⟨p, hp, rfl⟩ := Option.map_eq_some_iff.mp hs
    have hok := hsound p hp
    cases hbody : p.body with
    | requestVote args =>
      exact h.requestVote helect'
        (helect.traffic.request p (List.mem_of_getElem? hp) args hbody) hp hbody
    | requestVoteReply args r => exact h.requestVoteReply helect helect' hbody
    | appendEntries args => exact h.appendEntries helect hp hbody
    | appendEntriesReply args r => exact h.handleAppendEntriesReply hp hbody hok.reply
    | installSnapshot args => exact h.installSnapshot hp hbody hok.snapshot
    | installSnapshotReply args r => exact h.handleInstallSnapshotReply hp hbody
  | drop k =>
    obtain ⟨-, rfl⟩ := Cluster.step_drop hs
    exact ⟨s, Or.inl rfl, h.lose k⟩
  | pick i =>
    obtain ⟨r, hr, rfl⟩ := Cluster.step_pick hs
    exact ⟨s, Or.inl rfl, h.pick hr⟩
  | send i k =>
    obtain ⟨x, hx, rfl⟩ := Option.map_eq_some_iff.mp hs
    exact ⟨s, Or.inl rfl, h.send hx⟩
  | snapshot i index bytes =>
    obtain ⟨hidx, rfl⟩ := Cluster.step_snapshot hs
    exact ⟨s, Or.inl rfl, h.snapshot bytes hidx⟩
  | restart i =>
    cases hs
    exact ⟨s, Or.inl rfl, h.restart helect i⟩

end DistributedLabs.Raft1
