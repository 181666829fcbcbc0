import DistributedLabs.RaftApplyChannel

/-!
# What a step of a `raft1` cluster does

Every step of the cluster runs at most one critical section of one server and puts
at most a few packets on the network. Both are said here once: which section gave a
server its new state, and where a new packet comes from. An invariant about servers
and packets is then kept if every section and every new packet keeps it.
-/

namespace DistributedLabs.Raft1
open TransitionRuns

variable {n : ℕ} {C D : Type}

def Rpc.appendArgs : Rpc n C D → Option (AppendEntriesArgs n C)
  | .appendEntries args => some args
  | _ => none

/-- The request that a goroutine of `BroadcastAppendEntries` sends, as a packet's content. -/
def Rpc.ofRequest : Raft.Request n C D → Rpc n C D
  | .appendEntries args => .appendEntries args
  | .installSnapshot args => .installSnapshot args

/-- The sections that an action can make a server run, with the server's new state. -/
inductive Move (c : Cluster n C D) (i : Fin n) : Action n C D → Raft n C D → Prop
  | startElection : Move c i (.startElection i) (c.node i).rf.startElection.1
  | start (command : Option C) : Move c i (.start i command) ((c.node i).rf.start command).1
  | broadcast {server : Fin n} {r : Raft n C D × Raft.Request n C D}
      (hlead : (c.node i).rf.state = .leader) (hr : (c.node i).rf.broadcastTo server = some r) :
      Move c i (.broadcast i server) r.1
  | requestVote {k : ℕ} {p : Packet n C D} {args : RequestVoteArgs n} (hp : c.net[k]? = some p)
      (hi : p.callee = i) (hbody : p.body = .requestVote args) :
      Move c i (.deliver k) ((c.node i).rf.requestVote args).1
  | requestVoteReply {k : ℕ} {p : Packet n C D} {args : RequestVoteArgs n}
      {reply : RequestVoteReply} (hp : c.net[k]? = some p) (hi : p.caller = i)
      (hbody : p.body = .requestVoteReply args reply)
      (halive : (c.node i).incarnation = p.incarnation) :
      Move c i (.deliver k) ((c.node i).handleRequestVoteReply args reply).rf
  | appendEntries {k : ℕ} {p : Packet n C D} {args : AppendEntriesArgs n C}
      (hp : c.net[k]? = some p) (hi : p.callee = i) (hbody : p.body = .appendEntries args) :
      Move c i (.deliver k) ((c.node i).rf.appendEntries args).1
  | appendEntriesReply {k : ℕ} {p : Packet n C D} {args : AppendEntriesArgs n C}
      {reply : AppendEntriesReply} (hp : c.net[k]? = some p) (hi : p.caller = i)
      (hbody : p.body = .appendEntriesReply args reply)
      (halive : (c.node i).incarnation = p.incarnation) :
      Move c i (.deliver k) ((c.node i).rf.handleAppendEntriesReply p.callee args reply)
  | installSnapshot {k : ℕ} {p : Packet n C D} {args : InstallSnapshotArgs n C D}
      (hp : c.net[k]? = some p) (hi : p.callee = i) (hbody : p.body = .installSnapshot args) :
      Move c i (.deliver k) ((c.node i).rf.installSnapshot args).1
  | installSnapshotReply {k : ℕ} {p : Packet n C D} {args : InstallSnapshotArgs n C D}
      {reply : InstallSnapshotReply} (hp : c.net[k]? = some p) (hi : p.caller = i)
      (hbody : p.body = .installSnapshotReply args reply)
      (halive : (c.node i).incarnation = p.incarnation) :
      Move c i (.deliver k) ((c.node i).rf.handleInstallSnapshotReply p.callee args reply)
  | applier {r : Raft n C D × ApplyMsg C D} (hr : (c.node i).rf.applier = some r) :
      Move c i (.pick i) r.1
  | snapshot (index : ℕ) (bytes : Option D) :
      Move c i (.snapshot i index bytes) ((c.node i).rf.snapshot index bytes)
  | restart : Move c i (.restart i) (Raft.make i (c.node i).rf.persister)

variable {c c' : Cluster n C D} {a : Action n C D}

/-- The server keeps its state or runs a section. -/
def Moved (c : Cluster n C D) (a : Action n C D) (j : Fin n) (rf : Raft n C D) : Prop :=
  rf = (c.node j).rf ∨ Move c j a rf

theorem moved_of_update {i : Fin n} {nd : Node n C D}
    (hnode : c'.node = Function.update c.node i nd) (h : Moved c a i nd.rf) (j : Fin n) :
    Moved c a j (c'.node j).rf := by
  rw [hnode]
  rcases eq_or_ne j i with rfl | hj
  · rw [Function.update_self]
    exact h
  · rw [Function.update_of_ne hj]
    exact Or.inl rfl

theorem moved_of_deliver {k : ℕ} {p : Packet n C D} (hp : c.net[k]? = some p) (j : Fin n) :
    Moved c (.deliver k) j ((c.deliver p (c.net.eraseIdx k)).node j).rf := by
  cases hbody : p.body with
  | requestVote args =>
    simp only [Cluster.deliver, hbody]
    exact moved_of_update rfl (Or.inr (.requestVote hp rfl hbody)) j
  | requestVoteReply args reply =>
    simp only [Cluster.deliver, hbody]
    by_cases halive : (c.node p.caller).incarnation = p.incarnation
    · rw [if_pos halive]
      exact moved_of_update rfl (Or.inr (.requestVoteReply hp rfl hbody halive)) j
    · rw [if_neg halive]
      exact Or.inl rfl
  | appendEntries args =>
    simp only [Cluster.deliver, hbody]
    exact moved_of_update rfl (Or.inr (.appendEntries hp rfl hbody)) j
  | appendEntriesReply args reply =>
    simp only [Cluster.deliver, hbody]
    by_cases halive : (c.node p.caller).incarnation = p.incarnation
    · rw [if_pos halive]
      exact moved_of_update rfl (Or.inr (.appendEntriesReply hp rfl hbody halive)) j
    · rw [if_neg halive]
      exact Or.inl rfl
  | installSnapshot args =>
    simp only [Cluster.deliver, hbody]
    split <;> exact moved_of_update rfl (Or.inr (.installSnapshot hp rfl hbody)) j
  | installSnapshotReply args reply =>
    simp only [Cluster.deliver, hbody]
    by_cases halive : (c.node p.caller).incarnation = p.incarnation
    · rw [if_pos halive]
      exact moved_of_update rfl (Or.inr (.installSnapshotReply hp rfl hbody halive)) j
    · rw [if_neg halive]
      exact Or.inl rfl

theorem moved_of_step (hs : c.step a = some c') (j : Fin n) : Moved c a j (c'.node j).rf := by
  cases a with
  | startElection i =>
    cases hs
    exact moved_of_update rfl (Or.inr .startElection) j
  | start i command =>
    cases hs
    exact moved_of_update rfl (Or.inr (.start command)) j
  | broadcast i server =>
    obtain ⟨r, hlead, -, hr, rfl⟩ := Cluster.step_broadcast hs
    exact moved_of_update rfl (Or.inr (.broadcast hlead hr)) j
  | deliver k =>
    obtain ⟨p, hp, rfl⟩ := Option.map_eq_some_iff.mp hs
    exact moved_of_deliver hp j
  | drop k =>
    obtain ⟨-, rfl⟩ := Cluster.step_drop hs
    exact Or.inl rfl
  | pick i =>
    obtain ⟨r, hr, rfl⟩ := Cluster.step_pick hs
    exact moved_of_update rfl (Or.inr (.applier hr)) j
  | send i k =>
    obtain ⟨x, -, rfl⟩ := Option.map_eq_some_iff.mp hs
    refine moved_of_update rfl ?_ j
    exact Or.inl rfl
  | snapshot i index bytes =>
    obtain ⟨-, rfl⟩ := Cluster.step_snapshot hs
    exact moved_of_update rfl (Or.inr (.snapshot index bytes)) j
  | restart i =>
    cases hs
    exact moved_of_update rfl (Or.inr .restart) j

theorem durable_init (i : Fin n) :
    ((Cluster.init n C D).node i).rf.Durable ∧ ((Cluster.init n C D).node i).rf.me = i :=
  ⟨Raft.durable_make i, rfl⟩

/-- Along every run, servers keep their places and what they need to come back. -/
theorem durable_of_reaches {guard : Cluster n C D → Action n C D → Prop}
    (h : Reaches Cluster.step guard (Cluster.init n C D) c) (i : Fin n) :
    (c.node i).rf.Durable ∧ (c.node i).rf.me = i :=
  h.invariant durable_init (fun _ _ _ hd _ hs => durable_step hd hs) i

/-- What every step keeps while servers have what they need to come back holds along every run. -/
theorem durable_invariant {guard : Cluster n C D → Action n C D → Prop} {c₀ : Cluster n C D}
    {P : Cluster n C D → Prop} (h : Reaches Cluster.step guard c₀ c)
    (hd : ∀ i, (c₀.node i).rf.Durable ∧ (c₀.node i).rf.me = i) (start : P c₀)
    (kept : ∀ (c : Cluster n C D) a c', (∀ i, (c.node i).rf.Durable ∧ (c.node i).rf.me = i) →
      P c → guard c a → c.step a = some c' → P c') : P c := by
  have hkept : ∀ (c : Cluster n C D) a c',
      (∀ i, (c.node i).rf.Durable ∧ (c.node i).rf.me = i) ∧ P c → guard c a → c.step a = some c' →
      (∀ i, (c'.node i).rf.Durable ∧ (c'.node i).rf.me = i) ∧ P c' :=
    fun c a c' hc hg hs => ⟨durable_step hc.1 hs, kept c a c' hc.1 hc.2 hg hs⟩
  exact (h.invariant ⟨hd, start⟩ hkept).2

structure SameWindow (rf rf' : Raft n C D) : Prop where
  logs : rf'.logs = rf.logs
  lastIncludedIndex : rf'.lastIncludedIndex = rf.lastIncludedIndex
  lastIncludedTerm : rf'.lastIncludedTerm = rf.lastIncludedTerm

/-- What a step does to a server's log window, `commitIndex` and `lastApplied`. -/
inductive Change (c : Cluster n C D) (i : Fin n) (a : Action n C D) : Raft n C D → Prop
  | still (rf' : Raft n C D) (window : SameWindow (c.node i).rf rf')
      (term : (c.node i).rf.currentTerm ≤ rf'.currentTerm)
      (commitIndex : rf'.commitIndex = (c.node i).rf.commitIndex)
      (lastApplied : rf'.lastApplied = (c.node i).rf.lastApplied) : Change c i a rf'
  | commit (rf' : Raft n C D) (window : SameWindow (c.node i).rf rf')
      (term : rf'.currentTerm = (c.node i).rf.currentTerm)
      (forward : (c.node i).rf.commitIndex < rf'.commitIndex)
      (own : (c.node i).rf.getLogTerm rf'.commitIndex = (c.node i).rf.currentTerm)
      (lastApplied : rf'.lastApplied = (c.node i).rf.lastApplied) : Change c i a rf'
  | apply (behind : (c.node i).rf.lastApplied < (c.node i).rf.commitIndex) :
      Change c i a { (c.node i).rf with lastApplied := (c.node i).rf.lastApplied + 1 }
  | append (command : Option C) (hlead : (c.node i).rf.state = .leader) :
      Change c i a ((c.node i).rf.appendOwn command)
  | accept {k : ℕ} {p : Packet n C D} {args : AppendEntriesArgs n C} (ha : a = .deliver k)
      (hp : c.net[k]? = some p) (hi : p.callee = i) (hbody : p.body = .appendEntries args)
      (term : (c.node i).rf.currentTerm ≤ args.term)
      (first : (c.node i).rf.lastIncludedIndex ≤ args.prevLogIndex)
      (last : args.prevLogIndex ≤ (c.node i).rf.getLastLogIndex)
      (prev : args.prevLogTerm = (c.node i).rf.getLogTerm args.prevLogIndex) :
      Change c i a ((c.node i).rf.accept args)
  | install {k : ℕ} {p : Packet n C D} {args : InstallSnapshotArgs n C D} (ha : a = .deliver k)
      (hp : c.net[k]? = some p) (hi : p.callee = i) (hbody : p.body = .installSnapshot args)
      (term : (c.node i).rf.currentTerm ≤ args.term)
      (ahead : (c.node i).rf.commitIndex < args.lastIncludedIndex) :
      Change c i a ((c.node i).rf.install args)
  | trim {index : ℕ} {e : Entry C} (bytes : Option D)
      (ahead : (c.node i).rf.lastIncludedIndex < index)
      (slot : (c.node i).rf.logs[index - (c.node i).rf.lastIncludedIndex]? = some e) :
      Change c i a ((c.node i).rf.trim index bytes e.term
        ((c.node i).rf.logs.drop (index - (c.node i).rf.lastIncludedIndex + 1)))
  | reset {index : ℕ} (bytes : Option D) (ahead : (c.node i).rf.lastIncludedIndex < index)
      (short : (c.node i).rf.logs.length ≤ index - (c.node i).rf.lastIncludedIndex) :
      Change c i a ((c.node i).rf.trim index bytes (c.node i).rf.lastIncludedTerm [])
  | restart (ha : a = .restart i) :
      Change c i a
        { (c.node i).rf with
          state := .follower
          commitIndex := (c.node i).rf.lastIncludedIndex
          lastApplied := (c.node i).rf.lastIncludedIndex
          nextIndex := fun _ => 1
          matchIndex := fun _ => 0 }

namespace Change
variable {i : Fin n}

theorem observe (term : ℕ) : Change c i a ((c.node i).rf.observe term) := by
  rcases (c.node i).rf.observe_eq_or term with he | ⟨hlt, he⟩ <;> rw [he]
  · exact .still _ ⟨rfl, rfl, rfl⟩ le_rfl rfl rfl
  · exact .still _ ⟨rfl, rfl, rfl⟩ hlt.le rfl rfl

theorem stepDown {term : ℕ} (h : (c.node i).rf.currentTerm ≤ term) :
    Change c i a ((c.node i).rf.stepDown term) := .still _ ⟨rfl, rfl, rfl⟩ h rfl rfl

theorem of_move {rf : Raft n C D} (hd : (c.node i).rf.Durable) (hme : (c.node i).rf.me = i)
    (h : Move c i a rf) : Change c i a rf := by
  cases h with
  | startElection => exact .still _ ⟨rfl, rfl, rfl⟩ (Nat.le_succ _) rfl rfl
  | start command =>
    by_cases hl : (c.node i).rf.state = .leader
    · rw [(c.node i).rf.start_of_leader hl]
      exact .append command hl
    · rw [(c.node i).rf.start_of_not_leader hl]
      exact .still _ ⟨rfl, rfl, rfl⟩ le_rfl rfl rfl
  | broadcast hlead hr =>
    obtain ⟨next, he, -⟩ := (c.node i).rf.broadcastTo_cases hr
    rw [he]
    exact .still _ ⟨rfl, rfl, rfl⟩ le_rfl rfl rfl
  | @requestVote k p args =>
    rcases (c.node i).rf.requestVote_cases args with ⟨-, he⟩ | ⟨-, he⟩ | ⟨hle, -, -, he⟩ <;> rw [he]
    · exact .still _ ⟨rfl, rfl, rfl⟩ le_rfl rfl rfl
    · exact .observe args.term
    · exact .still _ ⟨rfl, rfl, rfl⟩ hle rfl rfl
  | @requestVoteReply k p args reply =>
    rcases (c.node i).handleRequestVoteReply_cases args reply with
      hnd | ⟨hlt, hnd⟩ | ⟨-, -, -, hnd | ⟨-, hnd⟩⟩ <;> rw [hnd]
    · exact .still _ ⟨rfl, rfl, rfl⟩ le_rfl rfl rfl
    · exact .stepDown hlt.le
    · exact .still _ ⟨rfl, rfl, rfl⟩ le_rfl rfl rfl
    · exact .still _ ⟨rfl, rfl, rfl⟩ le_rfl rfl rfl
  | @appendEntries k p args hp hi hbody =>
    rcases (c.node i).rf.appendEntries_cases hd.logs_ne args with
      ⟨-, he⟩ | ⟨hle, x, t, he⟩ | ⟨hle, hfirst, hlast, hprev, he⟩ <;> rw [he]
    · exact .still _ ⟨rfl, rfl, rfl⟩ le_rfl rfl rfl
    · exact .stepDown hle
    · exact .accept rfl hp hi hbody hle hfirst hlast hprev
  | @appendEntriesReply k p args reply =>
    rcases (c.node i).rf.handleAppendEntriesReply_cases p.callee args reply with
      ⟨hlt, he⟩ | ⟨next, he⟩ | ⟨-, -, -, he⟩ <;> rw [he]
    · exact .stepDown hlt.le
    · exact .still _ ⟨rfl, rfl, rfl⟩ le_rfl rfl rfl
    · rcases ((c.node i).rf.noteMatch p.callee args).commit_cases with
        hc | ⟨-, target, -, hforward, hown, hc⟩ <;> rw [hc]
      · exact .still _ ⟨rfl, rfl, rfl⟩ le_rfl rfl rfl
      · exact .commit _ ⟨rfl, rfl, rfl⟩ rfl hforward hown rfl
  | @installSnapshot k p args hp hi hbody =>
    rcases (c.node i).rf.installSnapshot_cases args with
      ⟨-, he⟩ | ⟨-, -, he⟩ | ⟨hle, hnew, he⟩ <;> rw [he]
    · exact .still _ ⟨rfl, rfl, rfl⟩ le_rfl rfl rfl
    · exact .observe args.term
    · exact .install rfl hp hi hbody hle hnew
  | @installSnapshotReply k p args reply =>
    rcases (c.node i).rf.handleInstallSnapshotReply_cases p.callee args reply with
      ⟨hlt, he⟩ | he | ⟨-, -, he⟩ <;> rw [he]
    · exact .stepDown hlt.le
    · exact .still _ ⟨rfl, rfl, rfl⟩ le_rfl rfl rfl
    · exact .still _ ⟨rfl, rfl, rfl⟩ le_rfl rfl rfl
  | applier hr =>
    obtain ⟨hbehind, -, entry, -, rfl⟩ := (c.node i).rf.applier_cases hr
    exact .apply hbehind
  | snapshot index bytes =>
    rcases (c.node i).rf.snapshot_cases index bytes with
      ⟨-, he⟩ | ⟨hlt, e, hslot, he⟩ | ⟨hlt, hshort, he⟩ <;> rw [he]
    · exact .still _ ⟨rfl, rfl, rfl⟩ le_rfl rfl rfl
    · exact .trim bytes hlt hslot
    · exact .reset bytes hlt hshort
  | restart =>
    have hmade : Change c i (.restart i) (Raft.make (c.node i).rf.me (c.node i).rf.persister) := by
      rw [Raft.make_of_durable hd]
      exact .restart rfl
    rw [hme] at hmade
    exact hmade

/-- Every step changes every server in one of these ways. -/
theorem of_step (hd : ∀ i, (c.node i).rf.Durable ∧ (c.node i).rf.me = i)
    (hs : c.step a = some c') (i : Fin n) : Change c i a (c'.node i).rf := by
  rcases moved_of_step hs i with he | hm
  · rw [he]
    exact .still _ ⟨rfl, rfl, rfl⟩ le_rfl rfl rfl
  · exact of_move (hd i).1 (hd i).2 hm

end Change

/-- The packets that an action puts on the network. -/
inductive Posted (c : Cluster n C D) : Action n C D → Packet n C D → Prop
  | requestVote {i server : Fin n} {args : RequestVoteArgs n} : Posted c (.startElection i)
      ⟨i, server, (c.node i).incarnation, .requestVote args⟩
  | request {i server : Fin n} {r : Raft n C D × Raft.Request n C D}
      (hlead : (c.node i).rf.state = .leader) (hne : server ≠ i)
      (hr : (c.node i).rf.broadcastTo server = some r) : Posted c (.broadcast i server)
      ⟨i, server, (c.node i).incarnation, .ofRequest r.2⟩
  | requestVoteReply {k : ℕ} {p : Packet n C D} {args : RequestVoteArgs n}
      (hp : c.net[k]? = some p) (hbody : p.body = .requestVote args) : Posted c (.deliver k)
      { p with body := .requestVoteReply args ((c.node p.callee).rf.requestVote args).2 }
  | appendEntriesReply {k : ℕ} {p : Packet n C D} {args : AppendEntriesArgs n C}
      (hp : c.net[k]? = some p) (hbody : p.body = .appendEntries args) : Posted c (.deliver k)
      { p with body := .appendEntriesReply args ((c.node p.callee).rf.appendEntries args).2 }
  /-- a snapshot that is not installed is answered at once -/
  | installSnapshotReply {k : ℕ} {p : Packet n C D} {args : InstallSnapshotArgs n C D}
      (hp : c.net[k]? = some p) (hbody : p.body = .installSnapshot args) : Posted c (.deliver k)
      (SnapshotCall.reply ⟨p.caller, p.incarnation, args⟩ p.callee)
  | sent {i : Fin n} {k : ℕ} {x : Sending n C D} {call : SnapshotCall n C D}
      (hx : (c.node i).sending[k]? = some x) (hcall : x.call = some call) :
      Posted c (.send i k) (call.reply i)

theorem posted_of_append {old new : List (Packet n C D)} (hold : old ⊆ c.net)
    (hnew : ∀ p ∈ new, Posted c a p) {p : Packet n C D} (hp : p ∈ old ++ new) :
    p ∈ c.net ∨ Posted c a p :=
  (List.mem_append.mp hp).imp (fun h => hold h) (hnew p)

theorem posted_of_singleton {old : List (Packet n C D)} {q : Packet n C D} (hold : old ⊆ c.net)
    (hnew : Posted c a q) {p : Packet n C D} (hp : p ∈ old ++ [q]) : p ∈ c.net ∨ Posted c a p := by
  refine posted_of_append hold (fun p hp => ?_) hp
  rw [List.mem_singleton.mp hp]
  exact hnew

theorem posted_of_deliver {k : ℕ} {p q : Packet n C D} (hp : c.net[k]? = some p)
    (hq : q ∈ (c.deliver p (c.net.eraseIdx k)).net) : q ∈ c.net ∨ Posted c (.deliver k) q := by
  have hold : c.net.eraseIdx k ⊆ c.net := fun _ => List.mem_of_mem_eraseIdx
  cases hbody : p.body with
  | requestVote args =>
    simp only [Cluster.deliver, hbody] at hq
    exact posted_of_singleton hold (.requestVoteReply hp hbody) hq
  | requestVoteReply args reply =>
    simp only [Cluster.deliver, hbody] at hq
    split_ifs at hq <;> exact Or.inl (hold hq)
  | appendEntries args =>
    simp only [Cluster.deliver, hbody] at hq
    exact posted_of_singleton hold (.appendEntriesReply hp hbody) hq
  | appendEntriesReply args reply =>
    simp only [Cluster.deliver, hbody] at hq
    split_ifs at hq <;> exact Or.inl (hold hq)
  | installSnapshot args =>
    simp only [Cluster.deliver, hbody] at hq
    split at hq
    · exact posted_of_singleton hold (.installSnapshotReply hp hbody) hq
    · exact Or.inl (hold hq)
  | installSnapshotReply args reply =>
    simp only [Cluster.deliver, hbody] at hq
    split_ifs at hq <;> exact Or.inl (hold hq)

theorem posted_of_step (hs : c.step a = some c') {p : Packet n C D} (hp : p ∈ c'.net) :
    p ∈ c.net ∨ Posted c a p := by
  have hself : c.net ⊆ c.net := fun _ => id
  cases a with
  | startElection i =>
    cases hs
    refine posted_of_append hself (fun p hp => ?_) hp
    obtain ⟨server, -, rfl⟩ := List.mem_map.mp hp
    exact .requestVote
  | start i command =>
    cases hs
    exact Or.inl hp
  | broadcast i server =>
    obtain ⟨r, hlead, hne, hr, rfl⟩ := Cluster.step_broadcast hs
    exact posted_of_singleton hself (.request hlead hne hr) hp
  | deliver k =>
    obtain ⟨q, hq, rfl⟩ := Option.map_eq_some_iff.mp hs
    exact posted_of_deliver hq hp
  | drop k =>
    obtain ⟨-, rfl⟩ := Cluster.step_drop hs
    exact Or.inl (List.mem_of_mem_eraseIdx hp)
  | pick i =>
    obtain ⟨r, hr, rfl⟩ := Cluster.step_pick hs
    exact Or.inl hp
  | send i k =>
    obtain ⟨x, hx, rfl⟩ := Option.map_eq_some_iff.mp hs
    refine posted_of_append hself (fun p hp => ?_) hp
    obtain ⟨call, hcall, rfl⟩ := Option.map_eq_some_iff.mp (Option.mem_toList.mp hp)
    exact .sent hx hcall
  | snapshot i index bytes =>
    obtain ⟨-, rfl⟩ := Cluster.step_snapshot hs
    exact Or.inl hp
  | restart i =>
    cases hs
    exact Or.inl hp

/-- A request to install a snapshot, delivered now, is the call. -/
def Asked (c : Cluster n C D) (a : Action n C D) (call : SnapshotCall n C D) : Prop :=
  ∃ k p, a = .deliver k ∧ c.net[k]? = some p ∧ p.caller = call.caller ∧
    p.incarnation = call.incarnation ∧ p.body = .installSnapshot call.args

/-- The server's object is the one it was; the calls it still has to answer are old or come with
this step. -/
structure SameObject (c : Cluster n C D) (a : Action n C D) (j : Fin n) (nd : Node n C D) : Prop where
  incarnation : nd.incarnation = (c.node j).incarnation
  calls : ∀ x ∈ nd.sending, ∀ call ∈ x.call,
    (∃ y ∈ (c.node j).sending, call ∈ y.call) ∨ Asked c a call

namespace SameObject

theorem refl (j : Fin n) : SameObject c a j (c.node j) :=
  ⟨rfl, fun x hx _ hcall => Or.inl ⟨x, hx, hcall⟩⟩

/-- Pending sends stay as they are, or one without a call is added. -/
theorem of_sending {j : Fin n} {nd : Node n C D} (hinc : nd.incarnation = (c.node j).incarnation)
    (hsending : ∀ x ∈ nd.sending, x ∈ (c.node j).sending ∨ x.call = none) : SameObject c a j nd := by
  refine ⟨hinc, fun x hx call hcall => Or.inl ?_⟩
  rcases hsending x hx with hold | hnone
  · exact ⟨x, hold, hcall⟩
  · rw [hnone] at hcall
    cases hcall

theorem of_update {i : Fin n} {nd : Node n C D} (hnode : c'.node = Function.update c.node i nd)
    (h : SameObject c a i nd) (j : Fin n) : SameObject c a j (c'.node j) := by
  rw [hnode]
  rcases eq_or_ne j i with rfl | hj
  · rw [Function.update_self]
    exact h
  · rw [Function.update_of_ne hj]
    exact refl j

theorem of_setRf (i : Fin n) (rf : Raft n C D) (j : Fin n) :
    SameObject c a j ((c.setRf i rf).node j) := by
  refine of_update rfl ?_ j
  exact of_sending rfl fun _ hx => Or.inl hx

theorem of_deliver {k : ℕ} {p : Packet n C D} (hp : c.net[k]? = some p) (j : Fin n) :
    SameObject c (.deliver k) j ((c.deliver p (c.net.eraseIdx k)).node j) := by
  cases hbody : p.body with
  | requestVote args =>
    simp only [Cluster.deliver, hbody]
    exact of_setRf _ _ j
  | requestVoteReply args reply =>
    simp only [Cluster.deliver, hbody]
    by_cases halive : (c.node p.caller).incarnation = p.incarnation
    · rw [if_pos halive]
      rcases (c.node p.caller).handleRequestVoteReply_cases args reply with
        hnd | ⟨-, hnd⟩ | ⟨-, -, -, hnd | ⟨-, hnd⟩⟩ <;> simp only [hnd] <;>
        refine of_update rfl ?_ j <;> exact of_sending rfl fun _ hx => Or.inl hx
    · rw [if_neg halive]
      exact refl j
  | appendEntries args =>
    simp only [Cluster.deliver, hbody]
    exact of_setRf _ _ j
  | appendEntriesReply args reply =>
    simp only [Cluster.deliver, hbody]
    split_ifs
    · exact of_setRf _ _ j
    · exact refl j
  | installSnapshot args =>
    simp only [Cluster.deliver, hbody]
    split
    · exact of_setRf _ _ j
    · refine of_update rfl ?_ j
      refine ⟨rfl, fun x hx call hcall => ?_⟩
      rcases List.mem_append.mp hx with hold | hnew
      · exact Or.inl ⟨x, hold, hcall⟩
      · rw [List.mem_singleton.mp hnew] at hcall
        cases hcall
        exact Or.inr ⟨k, p, rfl, hp, rfl, rfl, hbody⟩
  | installSnapshotReply args reply =>
    simp only [Cluster.deliver, hbody]
    split_ifs
    · exact of_setRf _ _ j
    · exact refl j

theorem of_step (hs : c.step a = some c') (j : Fin n) :
    SameObject c a j (c'.node j) ∨
      a = .restart j ∧ (c'.node j).incarnation = (c.node j).incarnation + 1 ∧
        (c'.node j).sending = [] := by
  cases a with
  | startElection i =>
    cases hs
    refine Or.inl (of_update rfl ?_ j)
    exact of_sending rfl fun _ hx => Or.inl hx
  | start i command =>
    cases hs
    exact Or.inl (of_setRf _ _ j)
  | broadcast i server =>
    obtain ⟨r, -, -, -, rfl⟩ := Cluster.step_broadcast hs
    exact Or.inl (of_setRf _ _ j)
  | deliver k =>
    obtain ⟨p, hp, rfl⟩ := Option.map_eq_some_iff.mp hs
    exact Or.inl (of_deliver hp j)
  | drop k =>
    obtain ⟨-, rfl⟩ := Cluster.step_drop hs
    exact Or.inl (refl j)
  | pick i =>
    obtain ⟨r, -, rfl⟩ := Cluster.step_pick hs
    refine Or.inl (of_update rfl ?_ j)
    refine of_sending rfl fun x hx => ?_
    rcases List.mem_append.mp hx with hold | hnew
    · exact Or.inl hold
    · rw [List.mem_singleton.mp hnew]
      exact Or.inr rfl
  | send i k =>
    obtain ⟨x, -, rfl⟩ := Option.map_eq_some_iff.mp hs
    refine Or.inl (of_update rfl ?_ j)
    exact of_sending rfl fun y hy => Or.inl (List.mem_of_mem_eraseIdx hy)
  | snapshot i index bytes =>
    obtain ⟨-, rfl⟩ := Cluster.step_snapshot hs
    exact Or.inl (of_setRf _ _ j)
  | restart i =>
    cases hs
    rcases eq_or_ne j i with rfl | hj
    · exact Or.inr ⟨rfl, by simp [Cluster.setNode, Node.boot], by simp [Cluster.setNode, Node.boot]⟩
    · left
      simp only [Cluster.setNode, Function.update_of_ne hj]
      exact refl j

end SameObject

end DistributedLabs.Raft1
