import DistributedLabs.RaftCheckedSections
import DistributedLabs.RaftStateMachineSafety

/-!
# `nextIndex` and `matchIndex` of a `raft1` leader

A leader sets `nextIndex` from the arguments of whatever reply arrives. A reply to a
request of an earlier leadership can name more entries than its log has since then;
the next request is then built with a negative capacity and the server panics. A
refusal that was overtaken by a success takes `nextIndex` back behind `matchIndex`.
Neither happens while a leader uses only replies to requests of its own leadership and
no refusal that asks for less than it knows to match.
-/

namespace DistributedLabs.Raft1
open TransitionRuns

variable {n : ℕ} {C D : Type} {c c' : Cluster n C D} {a : Action n C D}

/-- A leader backs up only to an index behind all that it knows to match. -/
def RefusalStands (c : Cluster n C D) (p : Packet n C D) : Prop :=
  ∀ r ∈ p.body.appendReply, (c.node p.caller).incarnation = p.incarnation →
    (c.node p.caller).rf.state = .leader → r.2.success = false →
    r.2.term ≤ (c.node p.caller).rf.currentTerm →
    r.1.prevLogIndex + 1 = (c.node p.caller).rf.nextIndex p.callee →
    r.2.conflictLogIndex < (c.node p.caller).rf.nextIndex p.callee →
    (c.node p.caller).rf.matchIndex p.callee < max 1 r.2.conflictLogIndex

instance (c : Cluster n C D) (p : Packet n C D) : Decidable (RefusalStands c p) :=
  inferInstanceAs (Decidable (∀ r ∈ p.body.appendReply, _))

/-- A leader installs no snapshot of its own term. -/
def LeaderKeepsLog (c : Cluster n C D) (p : Packet n C D) : Prop :=
  ∀ args ∈ p.body.snapshotArgs, (c.node p.callee).rf.state = .leader →
    args.term = (c.node p.callee).rf.currentTerm →
    args.lastIncludedIndex ≤ (c.node p.callee).rf.commitIndex

instance (c : Cluster n C D) (p : Packet n C D) : Decidable (LeaderKeepsLog c p) :=
  inferInstanceAs (Decidable (∀ args ∈ p.body.snapshotArgs, _))

def TimelyDelivery (c : Cluster n C D) : Action n C D → Prop
  | .deliver k => ∀ p ∈ c.net[k]?,
      ReplyStands c p ∧ SnapshotReplyStands c p ∧ RefusalStands c p ∧ LeaderKeepsLog c p
  | _ => True

instance (c : Cluster n C D) (a : Action n C D) : Decidable (TimelyDelivery c a) :=
  match a with
  | .deliver k => inferInstanceAs (Decidable (∀ p ∈ c.net[k]?, _))
  | .startElection _ | .start _ _ | .broadcast _ _ | .drop _ | .pick _ | .send _ _
  | .snapshot _ _ _ | .restart _ => .isTrue trivial

/-- Within a term no server becomes a candidate again and a leader's log only grows. -/
structure Onward (rf rf' : Raft n C D) : Prop where
  term : rf.currentTerm ≤ rf'.currentTerm
  candidate : rf'.currentTerm = rf.currentTerm → rf'.state = .candidate → rf.state = .candidate
  leader : rf'.currentTerm = rf.currentTerm → rf'.state = .leader →
    rf.state = .candidate ∨ rf.state = .leader ∧ rf.getLastLogIndex ≤ rf'.getLastLogIndex

namespace Onward
variable {rf rf' : Raft n C D}

theorem later (h : rf.currentTerm < rf'.currentTerm) : Onward rf rf' :=
  ⟨h.le, fun he => absurd he h.ne', fun he => absurd he h.ne'⟩

theorem follower (h : rf.currentTerm ≤ rf'.currentTerm) (hst : rf'.state = .follower) :
    Onward rf rf' := ⟨h, fun _ hc => by simp [hst] at hc, fun _ hl => by simp [hst] at hl⟩

theorem same (hterm : rf'.currentTerm = rf.currentTerm) (hst : rf'.state = rf.state)
    (hlast : rf.state = .leader → rf.getLastLogIndex ≤ rf'.getLastLogIndex) : Onward rf rf' :=
  ⟨hterm.ge, fun _ hc => hst ▸ hc, fun _ hl => Or.inr ⟨hst ▸ hl, hlast (hst ▸ hl)⟩⟩

theorem refl : Onward rf rf := same rfl rfl fun _ => le_rfl

theorem observe (term : ℕ) : Onward rf (rf.observe term) := by
  rcases rf.observe_eq_or term with he | ⟨hlt, he⟩ <;> rw [he]
  · exact refl
  · exact later hlt

theorem start (command : Option C) : Onward rf (rf.start command).1 := by
  by_cases hl : rf.state = .leader
  · rw [rf.start_of_leader hl]
    refine same rfl rfl fun _ => ?_
    simp only [Raft.getLastLogIndex, Raft.appendOwn, Raft.persist_logs,
      Raft.persist_lastIncludedIndex, List.length_append]
    omega
  · rw [rf.start_of_not_leader hl]
    exact refl

theorem appendEntriesReply (server : Fin n) (args : AppendEntriesArgs n C)
    (reply : AppendEntriesReply) : Onward rf (rf.handleAppendEntriesReply server args reply) := by
  rcases rf.handleAppendEntriesReply_cases server args reply with
    ⟨hlt, he⟩ | ⟨next, he⟩ | ⟨-, -, -, he⟩ <;> rw [he]
  · exact later hlt
  · exact same rfl rfl fun _ => le_rfl
  · rcases (rf.noteMatch server args).commit_cases with hc | ⟨-, target, -, -, -, hc⟩ <;> rw [hc]
    · exact same rfl rfl fun _ => le_rfl
    · exact same rfl rfl fun _ => le_rfl

/-- A snapshot of a later term ends a leadership; of its own term no leader installs one. -/
theorem installSnapshot {args : InstallSnapshotArgs n C D}
    (hkeep : rf.state = .leader → args.term = rf.currentTerm →
      args.lastIncludedIndex ≤ rf.commitIndex) : Onward rf (rf.installSnapshot args).1 := by
  rcases rf.installSnapshot_cases args with ⟨-, he⟩ | ⟨-, -, he⟩ | ⟨hle, hnew, he⟩ <;> rw [he]
  · exact refl
  · exact observe args.term
  · rcases hle.lt_or_eq with hlt | heq
    · exact later (hlt.trans_eq (rf.observe_currentTerm hle).symm)
    · have hsame := rf.observe_of_eq heq
      have hterm : (rf.observe args.term).currentTerm = rf.currentTerm := by rw [hsame]
      have hstate : (rf.observe args.term).state = rf.state := by rw [hsame]
      refine same hterm hstate fun hl => ?_
      have := hkeep hl heq.symm
      omega

theorem snapshot (index : ℕ) (bytes : Option D) : Onward rf (rf.snapshot index bytes) := by
  rcases rf.snapshot_cases index bytes with
    ⟨-, he⟩ | ⟨hlt, e, hslot, he⟩ | ⟨hlt, hshort, he⟩ <;> rw [he]
  · exact refl
  · have hin := (List.getElem?_eq_some_iff.mp hslot).1
    refine same rfl rfl fun _ => ?_
    simp only [Raft.getLastLogIndex, Raft.trim, Raft.save, List.length_cons, List.length_drop]
    omega
  · refine same rfl rfl fun _ => ?_
    simp only [Raft.getLastLogIndex, Raft.trim, Raft.save, List.length_singleton]
    omega

theorem of_move {i : Fin n} (hd : (c.node i).rf.Durable) (hme : (c.node i).rf.me = i)
    (ht : TimelyDelivery c a) (h : Move c i a rf) : Onward (c.node i).rf rf := by
  cases h with
  | startElection => exact later (Nat.lt_succ_self _)
  | start command => exact start command
  | broadcast hlead hr =>
    obtain ⟨next, he, -⟩ := (c.node i).rf.broadcastTo_cases hr
    rw [he]
    exact same rfl rfl fun _ => le_rfl
  | @requestVote k p args =>
    rcases (c.node i).rf.requestVote_cases args with ⟨-, he⟩ | ⟨-, he⟩ | ⟨hle, -, -, he⟩ <;> rw [he]
    · exact refl
    · exact observe args.term
    · exact follower hle rfl
  | @requestVoteReply k p args reply =>
    rcases (c.node i).handleRequestVoteReply_cases args reply with
      hnd | ⟨hlt, hnd⟩ | ⟨hcand, -, -, hnd | ⟨-, hnd⟩⟩ <;> rw [hnd]
    · exact refl
    · exact later hlt
    · exact refl
    · exact ⟨le_rfl, fun _ _ => hcand, fun _ _ => Or.inl hcand⟩
  | @appendEntries k p args =>
    rcases (c.node i).rf.appendEntries_cases hd.logs_ne args with
      ⟨-, he⟩ | ⟨hle, x, t, he⟩ | ⟨hle, -, -, -, he⟩ <;> rw [he]
    · exact refl
    · exact follower hle rfl
    · exact follower hle rfl
  | @appendEntriesReply k p args reply => exact appendEntriesReply p.callee args reply
  | @installSnapshot k p args hp hi hbody =>
    subst hi
    have hargs : args ∈ p.body.snapshotArgs := by simp [hbody, Rpc.snapshotArgs]
    exact installSnapshot ((ht p hp).2.2.2 args hargs)
  | @installSnapshotReply k p args reply =>
    rcases (c.node i).rf.handleInstallSnapshotReply_cases p.callee args reply with
      ⟨hlt, he⟩ | he | ⟨-, -, he⟩ <;> rw [he]
    · exact later hlt
    · exact refl
    · exact same rfl rfl fun _ => le_rfl
  | applier hr =>
    obtain ⟨-, -, entry, -, rfl⟩ := (c.node i).rf.applier_cases hr
    exact same rfl rfl fun _ => le_rfl
  | snapshot index bytes => exact snapshot index bytes
  | restart =>
    have hmade := Raft.make_of_durable hd
    rw [hme] at hmade
    rw [hmade]
    exact follower le_rfl rfl

end Onward

/-- The term of a leader's call, and the last index it speaks of. -/
def Rpc.extent : Rpc n C D → Option (ℕ × ℕ)
  | .appendEntries args | .appendEntriesReply args _ =>
    some (args.term, args.prevLogIndex + args.entries.length)
  | .installSnapshot args | .installSnapshotReply args _ => some (args.term, args.lastIncludedIndex)
  | .requestVote _ | .requestVoteReply _ _ => none

/-- What a call says of its caller: if the object and its leadership are still there, the caller's
log reaches the last index that the call speaks of. -/
structure Node.Issued (nd : Node n C D) (incarnation term last : ℕ) : Prop where
  incarnation_le : incarnation ≤ nd.incarnation
  term_le : incarnation = nd.incarnation → term ≤ nd.rf.currentTerm
  not_candidate : incarnation = nd.incarnation → term = nd.rf.currentTerm → nd.rf.state ≠ .candidate
  inside : incarnation = nd.incarnation → term = nd.rf.currentTerm → nd.rf.state = .leader →
    last ≤ nd.rf.getLastLogIndex

namespace Node.Issued
variable {nd nd' : Node n C D} {incarnation term last : ℕ}

theorem onward (h : nd.Issued incarnation term last) (hinc : nd'.incarnation = nd.incarnation)
    (ho : Onward nd.rf nd'.rf) : nd'.Issued incarnation term last := by
  have hterm : incarnation = nd'.incarnation → term = nd'.rf.currentTerm →
      incarnation = nd.incarnation ∧ term = nd.rf.currentTerm ∧
        nd'.rf.currentTerm = nd.rf.currentTerm := by
    intro hi ht
    have hle := h.term_le (hi.trans hinc)
    have hup := ho.term
    exact ⟨hi.trans hinc, by omega, by omega⟩
  refine ⟨h.incarnation_le.trans hinc.ge, fun hi => ?_, fun hi ht hc => ?_, fun hi ht hl => ?_⟩
  · exact (h.term_le (hi.trans hinc)).trans ho.term
  · obtain ⟨hi', ht', heq⟩ := hterm hi ht
    exact h.not_candidate hi' ht' (ho.candidate heq hc)
  · obtain ⟨hi', ht', heq⟩ := hterm hi ht
    rcases ho.leader heq hl with hcand | ⟨hlead, hlast⟩
    · exact absurd hcand (h.not_candidate hi' ht')
    · exact (h.inside hi' ht' hlead).trans hlast

/-- A call of an object that is gone says nothing. -/
theorem restarted (h : nd.Issued incarnation term last)
    (hinc : nd'.incarnation = nd.incarnation + 1) : nd'.Issued incarnation term last := by
  have hle := h.incarnation_le
  exact ⟨by omega, fun hi => by omega, fun hi => by omega, fun hi => by omega⟩

/-- A call that a leader makes now. -/
theorem of_leader (hlead : nd.rf.state = .leader) (hlast : last ≤ nd.rf.getLastLogIndex) :
    nd.Issued nd.incarnation nd.rf.currentTerm last :=
  ⟨le_rfl, fun _ => le_rfl, fun _ _ => by simp [hlead], fun _ _ _ => hlast⟩

theorem step {i : Fin n} (hd : ∀ i, (c.node i).rf.Durable ∧ (c.node i).rf.me = i)
    (ht : TimelyDelivery c a) (hs : c.step a = some c')
    (h : (c.node i).Issued incarnation term last) : (c'.node i).Issued incarnation term last := by
  rcases SameObject.of_step hs i with hsame | ⟨-, hinc, -⟩
  · refine h.onward hsame.incarnation ?_
    rcases moved_of_step hs i with he | hm
    · rw [he]
      exact Onward.refl
    · exact Onward.of_move (hd i).1 (hd i).2 ht hm
  · exact h.restarted hinc

end Node.Issued

/-- A request speaks of nothing behind the leader's log. -/
theorem Raft.extent_of_broadcastTo {rf : Raft n C D} (hlogs : rf.logs ≠ []) {server : Fin n}
    {r : Raft n C D × Request n C D} (hr : rf.broadcastTo server = some r) {x : ℕ × ℕ}
    (hx : x ∈ (Rpc.ofRequest r.2).extent) : x.1 = rf.currentTerm ∧ x.2 ≤ rf.getLastLogIndex := by
  obtain ⟨next, -, ⟨hfirst, hlast, hargs⟩ | hargs⟩ := rf.broadcastTo_cases hr <;> rw [hargs] at hx
  · cases hx
    refine ⟨rfl, ?_⟩
    have hlen := List.length_take_le (min (next server + batchSize) (rf.getLastLogIndex + 1) -
      next server) (rf.logs.drop (next server - rf.lastIncludedIndex))
    dsimp only
    omega
  · cases hx
    exact ⟨rfl, lastIncludedIndex_le_getLastLogIndex hlogs⟩

/-- A leader knows for every peer where to go on, and that is inside its log and behind what
matches: right behind, once anything is known to match. -/
def Raft.Tracks (rf : Raft n C D) (i : Fin n) : Prop :=
  rf.state = .leader → ∀ p ≠ i, rf.nextIndex p ≤ rf.getLastLogIndex + 1 ∧
    rf.matchIndex p < rf.nextIndex p ∧
    (rf.matchIndex p = 0 ∨ rf.nextIndex p = rf.matchIndex p + 1)

namespace Raft.Tracks
variable {rf rf' : Raft n C D} {i : Fin n}

theorem of_not_leader (h : rf.state ≠ .leader) : rf.Tracks i := fun hl => absurd hl h

theorem kept (h : rf.Tracks i) (ho : Onward rf rf') (hterm : rf'.currentTerm = rf.currentTerm)
    (hst : rf'.state = rf.state) (hnext : rf'.nextIndex = rf.nextIndex)
    (hmatch : ∀ p ≠ i, rf'.matchIndex p = rf.matchIndex p) : rf'.Tracks i := by
  intro hl p hp
  have hlead := hst ▸ hl
  obtain ⟨hinside, hknown⟩ := h hlead p hp
  rcases ho.leader hterm hl with hcand | ⟨-, hlast⟩
  · rw [hlead] at hcand
    cases hcand
  · rw [hnext, hmatch p hp]
    exact ⟨by omega, hknown⟩

/-- The entry of one peer changes. -/
theorem set (h : rf.Tracks i) (hlogs : rf'.getLastLogIndex = rf.getLastLogIndex)
    (hst : rf'.state = rf.state) {server : Fin n} {next known : ℕ}
    (hnext : rf'.nextIndex = Function.update rf.nextIndex server next)
    (hmatch : rf'.matchIndex = Function.update rf.matchIndex server known)
    (hset : rf.state = .leader → server ≠ i → next ≤ rf.getLastLogIndex + 1 ∧ known < next ∧
      (known = 0 ∨ next = known + 1)) :
    rf'.Tracks i := by
  intro hl p hp
  have hlead := hst ▸ hl
  rw [hnext, hmatch, hlogs]
  rcases eq_or_ne p server with rfl | hne
  · rw [Function.update_self, Function.update_self]
    exact hset hlead hp
  · rw [Function.update_of_ne hne, Function.update_of_ne hne]
    exact h hlead p hp

theorem observe (h : rf.Tracks i) (term : ℕ) : (rf.observe term).Tracks i := by
  rcases rf.observe_eq_or term with he | ⟨-, he⟩ <;> rw [he]
  · exact h
  · exact of_not_leader (by simp)

theorem commit (h : rf.Tracks i) : rf.commit.Tracks i := by
  rcases rf.commit_cases with he | ⟨-, target, -, -, -, he⟩ <;> rw [he]
  · exact h
  · exact h

/-- A refusal that is used asks for something behind what matches, and a success that is used
speaks of nothing behind the log. -/
theorem appendEntriesReply {server : Fin n} {args : AppendEntriesArgs n C}
    {reply : AppendEntriesReply} (h : rf.Tracks i)
    (hrefusal : rf.state = .leader → reply.success = false → reply.term ≤ rf.currentTerm →
      args.prevLogIndex + 1 = rf.nextIndex server → reply.conflictLogIndex < rf.nextIndex server →
      rf.matchIndex server < max 1 reply.conflictLogIndex)
    (hsuccess : rf.state = .leader → reply.success = true → reply.term ≤ rf.currentTerm →
      args.prevLogIndex + 1 = rf.nextIndex server →
      args.prevLogIndex + args.entries.length ≤ rf.getLastLogIndex) :
    (rf.handleAppendEntriesReply server args reply).Tracks i := by
  rcases rf.handleAppendEntriesReply_outcomes server args reply with
    ⟨-, he⟩ | he | ⟨hterm, hnext, hs, hback, he⟩ | ⟨hterm, hnext, hs, he⟩ <;> rw [he]
  · exact of_not_leader (by simp)
  · exact h
  · refine h.set rfl rfl rfl (Function.update_eq_self server _).symm fun hl hne => ?_
    obtain ⟨hlast, -, hknown⟩ := h hl server hne
    have hahead := hrefusal hl hs hterm hnext hback
    exact ⟨by omega, hahead, Or.inl (show rf.matchIndex server = 0 by omega)⟩
  · refine commit (h.set rfl rfl rfl rfl fun hl hne => ⟨?_, Nat.lt_succ_self _, Or.inr rfl⟩)
    exact Nat.succ_le_succ (hsuccess hl hs hterm hnext)

theorem installSnapshotReply {server : Fin n} {args : InstallSnapshotArgs n C D}
    {reply : InstallSnapshotReply} (h : rf.Tracks i)
    (hinside : rf.state = .leader → reply.term ≤ rf.currentTerm →
      args.lastIncludedIndex > rf.matchIndex server → args.lastIncludedIndex ≤ rf.getLastLogIndex) :
    (rf.handleInstallSnapshotReply server args reply).Tracks i := by
  rcases rf.handleInstallSnapshotReply_cases server args reply with
    ⟨-, he⟩ | he | ⟨hterm, hup, he⟩ <;> rw [he]
  · exact of_not_leader (by simp)
  · exact h
  · refine h.set rfl rfl rfl rfl fun hl hne => ⟨?_, Nat.lt_succ_self _, Or.inr rfl⟩
    exact Nat.succ_le_succ (hinside hl hterm hup)

theorem installSnapshot {args : InstallSnapshotArgs n C D} (h : rf.Tracks i)
    (ho : Onward rf (rf.installSnapshot args).1) : (rf.installSnapshot args).1.Tracks i := by
  rcases rf.installSnapshot_cases args with ⟨-, he⟩ | ⟨-, -, he⟩ | ⟨hle, -, he⟩ <;> rw [he] at ho ⊢
  · exact h
  · exact h.observe args.term
  · rcases rf.observe_eq_or args.term with hobs | ⟨-, hobs⟩
    · have hterm : (rf.observe args.term).currentTerm = rf.currentTerm := by rw [hobs]
      have hstate : (rf.observe args.term).state = rf.state := by rw [hobs]
      have hnext : (rf.observe args.term).nextIndex = rf.nextIndex := by rw [hobs]
      refine h.kept ho hterm hstate hnext fun p _ => ?_
      change (rf.observe args.term).matchIndex p = _
      rw [hobs]
    · refine of_not_leader ?_
      change (rf.observe args.term).state ≠ .leader
      rw [hobs]
      simp

theorem of_move (hd : (c.node i).rf.Durable) (hme : (c.node i).rf.me = i) (ht : TimelyDelivery c a)
    (hcalls : ∀ p ∈ c.net, ∀ x ∈ p.body.extent, (c.node p.caller).Issued p.incarnation x.1 x.2)
    (h : (c.node i).rf.Tracks i) (hm : Move c i a rf) : rf.Tracks i := by
  have ho := Onward.of_move hd hme ht hm
  cases hm with
  | startElection => exact of_not_leader (by simp [startElection])
  | start command =>
    by_cases hl : (c.node i).rf.state = .leader
    · rw [(c.node i).rf.start_of_leader hl] at ho ⊢
      refine h.kept ho rfl rfl rfl fun p hp => ?_
      simp only [appendOwn, hme]
      exact Function.update_of_ne hp _ _
    · rw [(c.node i).rf.start_of_not_leader hl]
      exact h
  | @broadcast server r hlead hr =>
    rcases (c.node i).rf.broadcastTo_nextIndex hr with he | ⟨hzero, he⟩ <;> rw [he]
    · exact h
    · refine h.set rfl rfl rfl (Function.update_eq_self server _).symm fun hl hne => ?_
      have := (h hl server hne).2.1
      omega
  | @requestVote k p args =>
    rcases (c.node i).rf.requestVote_cases args with ⟨-, he⟩ | ⟨-, he⟩ | ⟨-, -, -, he⟩ <;> rw [he]
    · exact h
    · exact h.observe args.term
    · exact of_not_leader (by simp [castVote])
  | @requestVoteReply k p args reply =>
    rcases (c.node i).handleRequestVoteReply_cases args reply with
      hnd | ⟨-, hnd⟩ | ⟨-, -, -, hnd | ⟨-, hnd⟩⟩ <;> rw [hnd]
    · exact h
    · exact of_not_leader (by simp)
    · exact h
    · intro _ p hp
      simp only [becomeLeader, hme, Function.update_of_ne hp]
      exact ⟨le_rfl, Nat.succ_pos _, Or.inl trivial⟩
  | @appendEntries k p args =>
    rcases (c.node i).rf.appendEntries_cases hd.logs_ne args with
      ⟨-, he⟩ | ⟨-, x, t, he⟩ | ⟨-, -, -, -, he⟩ <;> rw [he]
    · exact h
    · exact of_not_leader (by simp)
    · exact of_not_leader (by simp [accept, followCommit])
  | @appendEntriesReply k p args reply hp hi hbody halive =>
    subst hi
    have hreply : (args, reply) ∈ p.body.appendReply := by simp [hbody, Rpc.appendReply]
    obtain ⟨hstands, -, hrefusal, -⟩ := ht p hp
    refine h.appendEntriesReply (hrefusal _ hreply halive) fun hl hs hterm hnext => ?_
    have hcurrent := hstands _ hreply halive hl hs hterm hnext
    have hissued := hcalls p (List.mem_of_getElem? hp) _ (by rw [hbody]; rfl)
    exact hissued.inside halive.symm hcurrent hl
  | installSnapshot => exact h.installSnapshot ho
  | @installSnapshotReply k p args reply hp hi hbody halive =>
    subst hi
    have hreply : (args, reply) ∈ p.body.snapshotReply := by simp [hbody, Rpc.snapshotReply]
    obtain ⟨-, hstands, -, -⟩ := ht p hp
    refine h.installSnapshotReply fun hl hterm hup => ?_
    have hcurrent := hstands _ hreply halive hl hterm hup
    have hissued := hcalls p (List.mem_of_getElem? hp) _ (by rw [hbody]; rfl)
    exact hissued.inside halive.symm hcurrent hl
  | applier hr =>
    obtain ⟨-, -, entry, -, rfl⟩ := (c.node i).rf.applier_cases hr
    exact h
  | snapshot index bytes =>
    rcases (c.node i).rf.snapshot_cases index bytes with
      ⟨-, he⟩ | ⟨-, e, -, he⟩ | ⟨-, -, he⟩ <;> rw [he] at ho ⊢
    · exact h
    · exact h.kept ho rfl rfl rfl fun _ _ => rfl
    · exact h.kept ho rfl rfl rfl fun _ _ => rfl
  | restart =>
    have hmade := make_of_durable hd
    rw [hme] at hmade
    rw [hmade]
    exact of_not_leader (by simp)

end Raft.Tracks

structure Cluster.Tracked (c : Cluster n C D) : Prop where
  durable : ∀ i, (c.node i).rf.Durable ∧ (c.node i).rf.me = i
  calls : ∀ p ∈ c.net, ∀ x ∈ p.body.extent, (c.node p.caller).Issued p.incarnation x.1 x.2
  waiting : ∀ j, ∀ y ∈ (c.node j).sending, ∀ call ∈ y.call,
    (c.node call.caller).Issued call.incarnation call.args.term call.args.lastIncludedIndex
  tables : ∀ i, (c.node i).rf.Tracks i

namespace Cluster.Tracked

theorem init : (Cluster.init n C D).Tracked where
  durable i := ⟨Raft.durable_make i, rfl⟩
  calls := nofun
  waiting := nofun
  tables _ := .of_not_leader (by simp [Cluster.init, Node.boot, Raft.make, makePersister,
    Raft.readPersist])

/-- A new packet is a leader's request, or answers one. -/
theorem issued_of_posted (h : c.Tracked) {p : Packet n C D} (hp : Posted c a p) {x : ℕ × ℕ}
    (hx : x ∈ p.body.extent) : (c.node p.caller).Issued p.incarnation x.1 x.2 := by
  cases hp with
  | requestVote => cases hx
  | @request i server r hlead hne hr =>
    obtain ⟨hterm, hlast⟩ := Raft.extent_of_broadcastTo (h.durable i).1.logs_ne hr hx
    rw [hterm]
    exact .of_leader hlead hlast
  | requestVoteReply => cases hx
  | appendEntriesReply hq hbody =>
    cases hx
    exact h.calls _ (List.mem_of_getElem? hq) _ (by rw [hbody]; rfl)
  | installSnapshotReply hq hbody =>
    cases hx
    exact h.calls _ (List.mem_of_getElem? hq) _ (by rw [hbody]; rfl)
  | sent hx' hcall =>
    cases hx
    exact h.waiting _ _ (List.mem_of_getElem? hx') _ hcall

theorem step (h : c.Tracked) (ht : TimelyDelivery c a) (hs : c.step a = some c') : c'.Tracked where
  durable := durable_step h.durable hs
  calls p hp x hx := by
    refine Node.Issued.step h.durable ht hs ?_
    rcases posted_of_step hs hp with hold | hnew
    · exact h.calls p hold x hx
    · exact h.issued_of_posted hnew hx
  waiting j y hy call hcall := by
    refine Node.Issued.step h.durable ht hs ?_
    rcases SameObject.of_step hs j with hsame | ⟨-, -, hnone⟩
    · rcases hsame.calls y hy call hcall with ⟨z, hz, hold⟩ | ⟨k, p, -, hp, hcaller, hinc, hbody⟩
      · exact h.waiting j z hz call hold
      · have hissued := h.calls p (List.mem_of_getElem? hp) _ (by rw [hbody]; rfl)
        rw [hcaller, hinc] at hissued
        exact hissued
    · rw [hnone] at hy
      cases hy
  tables i := by
    rcases moved_of_step hs i with he | hm
    · rw [he]
      exact h.tables i
    · exact .of_move (h.durable i).1 (h.durable i).2 ht h.calls (h.tables i) hm

theorem of_reaches (h : Reaches Cluster.step TimelyDelivery (Cluster.init n C D) c) : c.Tracked :=
  h.invariant init fun _ _ _ hc ht hs => hc.step ht hs

end Cluster.Tracked

/-- In every run with timely deliveries, what a leader's tables say of its peers is inside its log
and in order, and it always builds its request: every index into the log is in range, the
capacity is not negative, and `PrevLogIndex` lies between its first and its last index. -/
theorem leader_builds_inside_log (c : Cluster n C D)
    (h : Reaches Cluster.step TimelyDelivery (Cluster.init n C D) c) (i : Fin n)
    (hlead : (c.node i).rf.state = .leader) (p : Fin n) (hp : p ≠ i) :
    (c.node i).rf.nextIndex p ≤ (c.node i).rf.getLastLogIndex + 1 ∧
    (c.node i).rf.matchIndex p < (c.node i).rf.nextIndex p ∧
    ∃ r, Checked.broadcastTo (c.node i).rf p = some r ∧ ∀ args, r.2 = .appendEntries args →
      (c.node i).rf.getFirstLogIndex ≤ args.prevLogIndex ∧
        args.prevLogIndex ≤ (c.node i).rf.getLastLogIndex := by
  have htracked := Cluster.Tracked.of_reaches h
  have hlogs := (htracked.durable i).1.logs_ne
  obtain ⟨hinside, hbehind, -⟩ := htracked.tables i hlead p hp
  refine ⟨hinside, hbehind, ?_⟩
  rw [Checked.broadcastTo_eq hlogs]
  rcases Nat.lt_or_ge (c.node i).rf.lastIncludedIndex ((c.node i).rf.nextIndex p) with hin | hout
  · refine ⟨_, Raft.broadcastTo_of_window _ hin hinside, fun args hargs => ?_⟩
    cases hargs
    exact ⟨Nat.le_sub_one_of_lt hin, by rw [Raft.appendRequest_prevLogIndex]; omega⟩
  · exact ⟨_, Raft.broadcastTo_of_snapshot _ (Nat.zero_lt_of_lt hbehind) hout, nofun⟩

/-- Server 0 leads for the second time with two entries that nobody else has. It backs up for server 1
after a refusal and brings it up to date; a second refusal is still under way. -/
theorem leader_builds_inside_log_after_refusal : ∃ c : Cluster 3 ℕ ℕ,
    Reaches Cluster.step TimelyDelivery (Cluster.init 3 ℕ ℕ) c ∧
      (c.node 0).rf.state = .leader ∧ (c.node 0).rf.nextIndex 1 = 3 ∧ c.net.length = 1 ∧
      (c.node 0).rf.matchIndex 1 < (c.node 0).rf.nextIndex 1 ∧
      (Checked.broadcastTo (c.node 0).rf 1).isSome := by
  obtain ⟨c, hreach, hlead, hnext, hnet⟩ :=
    exists_reaches Cluster.step TimelyDelivery (Cluster.init 3 ℕ ℕ)
      [.startElection 0, .deliver 1, .deliver 1, .start 0 (some 7), .start 0 (some 8), .drop 0,
        .startElection 0, .deliver 1, .deliver 1, .drop 0, .broadcast 0 1, .broadcast 0 1, .deliver 0,
        .deliver 0, .deliver 0, .broadcast 0 1, .deliver 1, .deliver 1]
      (fun c => (c.node 0).rf.state = .leader ∧ (c.node 0).rf.nextIndex 1 = 3 ∧ c.net.length = 1)
      (by decide +kernel)
  obtain ⟨-, hbehind, r, hr, -⟩ := leader_builds_inside_log c hreach 0 hlead 1 (by decide)
  exact ⟨c, hreach, hlead, hnext, hnet, hbehind, by rw [hr]; rfl⟩

/-- In term 1 server 0 gives server 1 two entries, and the reply is delayed. In term 2 server 2, elected
by servers 3 and 4, replaces both entries of server 0 by one of its own. In term 3 server 0 leads
again and backs up for server 1; then the old reply arrives, and the next request panics. In
the other run the refusal that is still under way above arrives. -/
theorem leader_tables_broken :
    (∃ c : Cluster 5 ℕ ℕ, Reaches Cluster.step anyStep (Cluster.init 5 ℕ ℕ) c ∧
      (c.node 0).rf.state = .leader ∧
      (c.node 0).rf.getLastLogIndex + 1 < (c.node 0).rf.nextIndex 1 ∧
      Checked.broadcastTo (c.node 0).rf 1 = none) ∧
    ∃ c : Cluster 3 ℕ ℕ, Reaches Cluster.step anyStep (Cluster.init 3 ℕ ℕ) c ∧
      (c.node 0).rf.state = .leader ∧ (c.node 0).rf.nextIndex 1 < (c.node 0).rf.matchIndex 1 := by
  constructor
  · obtain ⟨c, hreach, hlead, hnext, hnone⟩ :=
      exists_reaches Cluster.step anyStep (Cluster.init 5 ℕ ℕ)
        [.startElection 0, .deliver 0, .deliver 0, .deliver 2, .deliver 2, .drop 0, .drop 0,
          .start 0 (some 7), .start 0 (some 8), .broadcast 0 1, .deliver 0,
          .startElection 2, .deliver 3, .deliver 3, .deliver 3, .deliver 3, .drop 1, .drop 1,
          .start 2 (some 9), .broadcast 2 0, .deliver 1, .drop 1,
          .startElection 0, .deliver 1, .deliver 2, .deliver 3, .deliver 3, .drop 1, .drop 1,
          .broadcast 0 1, .deliver 1, .deliver 1, .deliver 0]
        (fun c => (c.node 0).rf.state = .leader ∧
          (c.node 0).rf.getLastLogIndex + 1 < (c.node 0).rf.nextIndex 1 ∧
          (Checked.broadcastTo (c.node 0).rf 1).isNone) (by decide +kernel)
    exact ⟨c, hreach, hlead, hnext, Option.isNone_iff_eq_none.mp hnone⟩
  · exact exists_reaches Cluster.step anyStep (Cluster.init 3 ℕ ℕ)
      [.startElection 0, .deliver 1, .deliver 1, .start 0 (some 7), .start 0 (some 8), .drop 0,
        .startElection 0, .deliver 1, .deliver 1, .drop 0, .broadcast 0 1, .broadcast 0 1, .deliver 0,
        .deliver 0, .deliver 0, .broadcast 0 1, .deliver 1, .deliver 1, .deliver 0]
      (fun c => (c.node 0).rf.state = .leader ∧
        (c.node 0).rf.nextIndex 1 < (c.node 0).rf.matchIndex 1) (by decide +kernel)

end DistributedLabs.Raft1
