import DistributedLabs.RaftElectionSafety

/-!
# What one server sends on `applyCh`

`lastApplied` moves under the lock, the send comes later and without it, and two
goroutines send on the same channel. For one server only six things can happen
that matter here: a section that leaves `lastApplied` and the snapshot alone, an
installed snapshot, an entry picked by the applier, a send, a snapshot of the
service and a restart. The messages received together with those about to be sent
form a gap-free sequence up to `lastApplied` as long as no message overtakes an
older one and no installed snapshot is behind `lastApplied`.
-/

namespace DistributedLabs.Raft1
open TransitionRuns

variable {n : ℕ} {C D : Type}

/-- What can happen to one server; `sends` and `installs` restrict which pending message
is sent and which snapshots are installed. -/
inductive ServerStep (sends : ℕ → Prop) (installs : InstallSnapshotArgs n C D → Prop)
    (nd : Node n C D) : Node n C D → Prop
  | steady (nd' : Node n C D) (durable : nd'.rf.Durable) (me : nd'.rf.me = nd.rf.me)
      (lastApplied : nd'.rf.lastApplied = nd.rf.lastApplied)
      (lastIncludedIndex : nd'.rf.lastIncludedIndex = nd.rf.lastIncludedIndex)
      (sending : nd'.sending = nd.sending) (received : nd'.received = nd.received)
      (base : nd'.base = nd.base) : ServerStep sends installs nd nd'
  | install (args : InstallSnapshotArgs n C D) (call : Option (SnapshotCall n C D))
      (allowed : installs args) : ServerStep sends installs nd
      { nd with
        rf := nd.rf.install args
        sending := nd.sending ++
          [⟨.snapshot args.data args.lastIncludedTerm args.lastIncludedIndex, call⟩] }
  | pick (command : Option C) (term : ℤ) : ServerStep sends installs nd
      { nd with
        rf := { nd.rf with lastApplied := nd.rf.lastApplied + 1 }
        sending := nd.sending ++ [⟨.command command (nd.rf.lastApplied + 1) term, none⟩] }
  | send (k : ℕ) (x : Sending n C D) (pending : nd.sending[k]? = some x) (allowed : sends k) :
      ServerStep sends installs nd
      { nd with
        sending := nd.sending.eraseIdx k
        received := nd.received ++ [x.msg] }
  | snapshot (index : ℕ) (bytes : Option D) (known : index ∈ nd.received.map ApplyMsg.index) :
      ServerStep sends installs nd { nd with rf := nd.rf.snapshot index bytes }
  | restart : ServerStep sends installs nd
      (Node.boot nd.rf.me nd.rf.persister (nd.incarnation + 1))

/-- A change of `rf` alone that is calm and leaves the two indices where they are. -/
theorem ServerStep.of_calm {sends : ℕ → Prop} {installs : InstallSnapshotArgs n C D → Prop}
    {nd : Node n C D} {rf : Raft n C D} (h : Calm nd.rf rf)
    (lastApplied : rf.lastApplied = nd.rf.lastApplied)
    (lastIncludedIndex : rf.lastIncludedIndex = nd.rf.lastIncludedIndex) :
    ServerStep sends installs nd { nd with rf := rf } :=
  .steady _ h.durable h.me lastApplied lastIncludedIndex rfl rfl rfl

section Indices
variable (rf : Raft n C D)

theorem observe_indices (T : ℕ) : (rf.observe T).lastApplied = rf.lastApplied ∧
    (rf.observe T).lastIncludedIndex = rf.lastIncludedIndex := by
  rcases rf.observe_eq_or T with he | ⟨-, he⟩ <;> rw [he] <;> exact ⟨rfl, rfl⟩

theorem appendEntries_indices (hlogs : rf.logs ≠ []) (args : AppendEntriesArgs n C) :
    (rf.appendEntries args).1.lastApplied = rf.lastApplied ∧
      (rf.appendEntries args).1.lastIncludedIndex = rf.lastIncludedIndex := by
  rcases rf.appendEntries_cases hlogs args with ⟨-, he⟩ | ⟨-, i, t, he⟩ | ⟨-, -, -, -, he⟩ <;>
    rw [he] <;> exact ⟨rfl, rfl⟩

theorem handleAppendEntriesReply_indices (server : Fin n) (args : AppendEntriesArgs n C)
    (reply : AppendEntriesReply) :
    (rf.handleAppendEntriesReply server args reply).lastApplied = rf.lastApplied ∧
      (rf.handleAppendEntriesReply server args reply).lastIncludedIndex = rf.lastIncludedIndex := by
  rcases rf.handleAppendEntriesReply_cases server args reply with
    ⟨-, he⟩ | ⟨next, he⟩ | ⟨-, -, -, he⟩ <;> rw [he]
  · exact ⟨rfl, rfl⟩
  · exact ⟨rfl, rfl⟩
  · rcases (rf.noteMatch server args).commit_cases with hc | ⟨-, target, -, -, -, hc⟩ <;>
      rw [hc] <;> exact ⟨rfl, rfl⟩

theorem handleInstallSnapshotReply_indices (server : Fin n) (args : InstallSnapshotArgs n C D)
    (reply : InstallSnapshotReply) :
    (rf.handleInstallSnapshotReply server args reply).lastApplied = rf.lastApplied ∧
      (rf.handleInstallSnapshotReply server args reply).lastIncludedIndex =
        rf.lastIncludedIndex := by
  rcases rf.handleInstallSnapshotReply_cases server args reply with
    ⟨-, he⟩ | he | ⟨-, -, he⟩ <;> rw [he] <;> exact ⟨rfl, rfl⟩

theorem start_indices (command : Option C) : (rf.start command).1.lastApplied = rf.lastApplied ∧
    (rf.start command).1.lastIncludedIndex = rf.lastIncludedIndex := by
  by_cases hl : rf.state = .leader
  · rw [rf.start_of_leader hl]
    exact ⟨rfl, rfl⟩
  · rw [rf.start_of_not_leader hl]
    exact ⟨rfl, rfl⟩

end Indices

/-- The restriction a guard puts on the snapshots a server installs. -/
def Installs (guard : Cluster n C D → Action n C D → Prop) (c : Cluster n C D) (i : Fin n)
    (args : InstallSnapshotArgs n C D) : Prop :=
  (c.node i).rf.commitIndex < args.lastIncludedIndex ∧ (c.node i).rf.currentTerm ≤ args.term ∧
    ∃ k p, c.net[k]? = some p ∧ p.callee = i ∧ p.body = .installSnapshot args ∧ guard c (.deliver k)

/-- The restriction a guard puts on the messages a server sends. -/
def Sends (guard : Cluster n C D → Action n C D → Prop) (c : Cluster n C D) (i : Fin n)
    (k : ℕ) : Prop := guard c (.send i k)

section Projection
variable {guard : Cluster n C D → Action n C D → Prop} {c c' : Cluster n C D}

/-- Every server that a step of the cluster touches takes one step of its own. -/
def Projects (guard : Cluster n C D → Action n C D → Prop) (c c' : Cluster n C D) : Prop :=
  ∀ j, c'.node j = c.node j ∨
    ServerStep (Sends guard c j) (Installs guard c j) (c.node j) (c'.node j)

theorem Projects.of_update {i : Fin n} {nd : Node n C D}
    (hnode : c'.node = Function.update c.node i nd)
    (h : ServerStep (Sends guard c i) (Installs guard c i) (c.node i) nd) :
    Projects guard c c' := by
  intro j
  rcases eq_or_ne j i with rfl | hj
  · rw [hnode, Function.update_self]
    exact Or.inr h
  · rw [hnode, Function.update_of_ne hj]
    exact Or.inl rfl

theorem Projects.refl (hnode : c'.node = c.node) : Projects guard c c' := fun j =>
  Or.inl (congrFun hnode j)

theorem projects_deliver {k : ℕ} {p : Packet n C D} (hd : ∀ i, (c.node i).rf.Durable)
    (hg : guard c (.deliver k)) (hp : c.net[k]? = some p) :
    Projects guard c (c.deliver p (c.net.eraseIdx k)) := by
  cases hbody : p.body with
  | requestVote args =>
    simp only [Cluster.deliver, hbody]
    rcases (c.node p.callee).rf.requestVote_cases args with
      ⟨-, he⟩ | ⟨-, he⟩ | ⟨hle, -, -, he⟩ <;> simp only [he]
    · exact .of_update rfl (.of_calm (Calm.refl (hd _)) rfl rfl)
    · exact .of_update rfl (.of_calm (Calm.observe (hd _) _) (observe_indices _ _).1
        (observe_indices _ _).2)
    · exact .of_update rfl (.steady _ (Raft.durable_persist (hd _).logs_ne) rfl rfl rfl rfl rfl rfl)
  | requestVoteReply args r =>
    simp only [Cluster.deliver, hbody]
    by_cases halive : (c.node p.caller).incarnation = p.incarnation
    case neg =>
      rw [if_neg halive]
      exact .refl rfl
    rw [if_pos halive]
    rcases (c.node p.caller).handleRequestVoteReply_cases args r with
      hnd | ⟨hlt, hnd⟩ | ⟨-, -, -, hnd | ⟨-, hnd⟩⟩ <;> simp only [hnd]
    · exact .of_update rfl (.of_calm (Calm.refl (hd _)) rfl rfl)
    · exact .of_update rfl (.of_calm (Calm.stepDown (hd _) hlt.le) rfl rfl)
    · exact .of_update rfl (.steady _ (hd _) rfl rfl rfl rfl rfl rfl)
    · exact .of_update rfl (.steady _
        ((hd _).of_sameStable ⟨rfl, rfl, rfl, rfl, rfl, rfl, rfl⟩) rfl rfl rfl rfl rfl rfl)
  | appendEntries args =>
    simp only [Cluster.deliver, hbody]
    obtain ⟨happlied, hlii⟩ := appendEntries_indices _ (hd p.callee).logs_ne args
    exact .of_update rfl (.of_calm (Calm.appendEntries (hd _) args) happlied hlii)
  | appendEntriesReply args r =>
    simp only [Cluster.deliver, hbody]
    split_ifs
    · obtain ⟨happlied, hlii⟩ :=
        handleAppendEntriesReply_indices (c.node p.caller).rf p.callee args r
      exact .of_update rfl (.of_calm (Calm.handleAppendEntriesReply (hd _) _ _ _) happlied hlii)
    · exact .refl rfl
  | installSnapshot args =>
    simp only [Cluster.deliver, hbody]
    rcases (c.node p.callee).rf.installSnapshot_cases args with
      ⟨-, he⟩ | ⟨-, -, he⟩ | ⟨hle, hnew, he⟩ <;> simp only [he]
    · exact .of_update rfl (.of_calm (Calm.refl (hd _)) rfl rfl)
    · exact .of_update rfl (.of_calm (Calm.observe (hd _) _) (observe_indices _ _).1
        (observe_indices _ _).2)
    · exact .of_update rfl (.install args _ ⟨hnew, hle, k, p, hp, rfl, hbody, hg⟩)
  | installSnapshotReply args r =>
    simp only [Cluster.deliver, hbody]
    split_ifs
    · obtain ⟨happlied, hlii⟩ :=
        handleInstallSnapshotReply_indices (c.node p.caller).rf p.callee args r
      exact .of_update rfl (.of_calm (Calm.handleInstallSnapshotReply (hd _) _ _ _) happlied hlii)
    · exact .refl rfl

theorem projects_step {a : Action n C D} (hd : ∀ i, (c.node i).rf.Durable)
    (hme : ∀ i, (c.node i).rf.me = i) (hg : guard c a) (hs : c.step a = some c') :
    Projects guard c c' := by
  cases a with
  | startElection i =>
    cases hs
    exact .of_update rfl (.steady _ (Raft.durable_persist (hd i).logs_ne) rfl rfl rfl rfl rfl rfl)
  | start i command =>
    cases hs
    obtain ⟨happlied, hlii⟩ := start_indices (c.node i).rf command
    exact .of_update rfl (.of_calm (Calm.start (hd i) command) happlied hlii)
  | broadcast i server =>
    obtain ⟨r, -, -, hr, rfl⟩ := Cluster.step_broadcast hs
    obtain ⟨next, hrf, -⟩ := (c.node i).rf.broadcastTo_cases hr
    exact .of_update rfl (.of_calm (Calm.broadcastTo (hd i) hr) (by rw [hrf]) (by rw [hrf]))
  | deliver k =>
    obtain ⟨p, hp, rfl⟩ := Option.map_eq_some_iff.mp hs
    exact projects_deliver hd hg hp
  | drop k =>
    obtain ⟨-, rfl⟩ := Cluster.step_drop hs
    exact .refl rfl
  | pick i =>
    obtain ⟨r, hr, rfl⟩ := Cluster.step_pick hs
    obtain ⟨-, -, entry, -, rfl⟩ := (c.node i).rf.applier_cases hr
    exact .of_update rfl (.pick _ _)
  | send i k =>
    obtain ⟨x, hx, rfl⟩ := Option.map_eq_some_iff.mp hs
    exact .of_update rfl (.send k x hx hg)
  | snapshot i index bytes =>
    obtain ⟨hidx, rfl⟩ := Cluster.step_snapshot hs
    exact .of_update rfl (.snapshot index bytes hidx)
  | restart i =>
    cases hs
    have hstep : ServerStep (Sends guard c i) (Installs guard c i) (c.node i) _ := .restart
    rw [hme i] at hstep
    exact .of_update rfl hstep

end Projection

theorem ServerStep.durable {sends : ℕ → Prop} {installs : InstallSnapshotArgs n C D → Prop}
    {nd nd' : Node n C D} (h : ServerStep sends installs nd nd') (hd : nd.rf.Durable) :
    nd'.rf.Durable ∧ nd'.rf.me = nd.rf.me := by
  cases h with
  | steady _ durable me => exact ⟨durable, me⟩
  | install args => exact ⟨hd.install args, (Calm.observe hd args.term).me⟩
  | pick => exact ⟨hd.of_sameStable ⟨rfl, rfl, rfl, rfl, rfl, rfl, rfl⟩, rfl⟩
  | send => exact ⟨hd, rfl⟩
  | snapshot index bytes =>
    exact ⟨hd.snapshot index bytes, (Calm.snapshot hd index bytes).me⟩
  | restart =>
    have hmake := Calm.make hd
    exact ⟨hmake.durable, hmake.me⟩

/-- Whatever the run, servers keep their places and what they need to come back. -/
theorem durable_step {c c' : Cluster n C D} {a : Action n C D}
    (h : ∀ i, (c.node i).rf.Durable ∧ (c.node i).rf.me = i) (hs : c.step a = some c') (i : Fin n) :
    (c'.node i).rf.Durable ∧ (c'.node i).rf.me = i := by
  have hany : anyStep c a := trivial
  rcases projects_step (fun i => (h i).1) (fun i => (h i).2) hany hs i with he | hstep
  · rw [he]
    exact h i
  · obtain ⟨hd, hme⟩ := hstep.durable (h i).1
    exact ⟨hd, hme.trans (h i).2⟩

theorem server_invariant {guard : Cluster n C D → Action n C D → Prop} {c : Cluster n C D}
    {P : Node n C D → Prop} (h : Reaches Cluster.step guard (Cluster.init n C D) c)
    (start : ∀ i, P (Node.boot i (makePersister C D) 0))
    (kept : ∀ (c : Cluster n C D) i nd, (c.node i).rf.Durable → P (c.node i) →
      ServerStep (Sends guard c i) (Installs guard c i) (c.node i) nd → P nd) (i : Fin n) :
    P (c.node i) := by
  have hkept : ∀ (c : Cluster n C D) a c',
      (∀ i, (c.node i).rf.Durable ∧ (c.node i).rf.me = i ∧ P (c.node i)) → guard c a →
      c.step a = some c' →
      ∀ i, (c'.node i).rf.Durable ∧ (c'.node i).rf.me = i ∧ P (c'.node i) := by
    intro c a c' hc hg hs i
    obtain ⟨hd', hme'⟩ := durable_step (fun i => ⟨(hc i).1, (hc i).2.1⟩) hs i
    refine ⟨hd', hme', ?_⟩
    rcases projects_step (fun i => (hc i).1) (fun i => (hc i).2.1) hg hs i with he | hstep
    · rw [he]
      exact (hc i).2.2
    · exact kept c i _ (hc i).1 (hc i).2.2 hstep
  exact (h.invariant (fun i => ⟨Raft.durable_make i, rfl, start i⟩) hkept i).2.2

/-- Messages that lead from index `a` to index `b`: a command goes one further, a snapshot
any number further. -/
inductive Leads : ℕ → List (ApplyMsg C D) → ℕ → Prop
  | nil (a : ℕ) : Leads a [] a
  | command {a b : ℕ} {rest : List (ApplyMsg C D)} (command : Option C) (term : ℤ)
      (h : Leads (a + 1) rest b) : Leads a (.command command (a + 1) term :: rest) b
  | snapshot {a b i : ℕ} {rest : List (ApplyMsg C D)} (data : Snapshot C D) (term : ℕ)
      (hi : a < i) (h : Leads i rest b) : Leads a (.snapshot data term i :: rest) b

namespace Leads
variable {a b : ℕ} {l m : List (ApplyMsg C D)}

theorem append {e : ℕ} (h : Leads a l b) (h' : Leads b m e) : Leads a (l ++ m) e := by
  induction h with
  | nil => exact h'
  | command command term _ ih => exact .command command term (ih h')
  | snapshot data term hi _ ih => exact .snapshot data term hi (ih h')

theorem split (h : Leads a (l ++ m) b) : ∃ e, Leads a l e ∧ Leads e m b := by
  induction l generalizing a with
  | nil => exact ⟨a, .nil a, h⟩
  | cons x l ih =>
    cases h with
    | command command term h =>
      obtain ⟨e, he, hm⟩ := ih h
      exact ⟨e, .command command term he, hm⟩
    | snapshot data term hi h =>
      obtain ⟨e, he, hm⟩ := ih h
      exact ⟨e, .snapshot data term hi he, hm⟩

theorem le (h : Leads a l b) : a ≤ b := by
  induction h with
  | nil => exact le_rfl
  | command _ _ _ ih => omega
  | snapshot _ _ hi _ ih => omega

theorem index_le (h : Leads a l b) {x : ApplyMsg C D} (hx : x ∈ l) : a < x.index ∧ x.index ≤ b := by
  induction h with
  | nil => cases hx
  | command command term hrest ih =>
    rcases List.mem_cons.mp hx with rfl | hx
    · exact ⟨Nat.lt_succ_self _, hrest.le⟩
    · obtain ⟨hlo, hhi⟩ := ih hx
      omega
  | snapshot data term hi hrest ih =>
    rcases List.mem_cons.mp hx with rfl | hx
    · exact ⟨hi, hrest.le⟩
    · obtain ⟨hlo, hhi⟩ := ih hx
      omega

end Leads

/-- The index of the last message, or where the sequence started. -/
def lastIndex (base : ℕ) (past : List (ApplyMsg C D)) : ℕ :=
  (past.getLast?.map ApplyMsg.index).getD base

/-- A command carries the index after that of the message before it, a snapshot an index
above all received before. -/
def GapFree (base : ℕ) (received : List (ApplyMsg C D)) : Prop :=
  ∀ past m rest, received = past ++ m :: rest → match m with
    | .command _ i _ => i = lastIndex base past + 1
    | .snapshot _ _ i => ∀ m' ∈ past, m'.index < i

theorem lastIndex_cons (base : ℕ) (x : ApplyMsg C D) (rest : List (ApplyMsg C D)) :
    lastIndex base (x :: rest) = lastIndex x.index rest := by
  rw [lastIndex, List.getLast?_cons, lastIndex]
  cases rest.getLast? <;> rfl

theorem Leads.eq_lastIndex {a b : ℕ} {l : List (ApplyMsg C D)} (h : Leads a l b) :
    b = lastIndex a l := by
  induction h with
  | nil => rfl
  | command command term _ ih => rw [lastIndex_cons, ih, ApplyMsg.index]
  | snapshot data term _ _ ih => rw [lastIndex_cons, ih, ApplyMsg.index]

theorem Leads.gapFree {a b : ℕ} {l : List (ApplyMsg C D)} (h : Leads a l b) : GapFree a l := by
  rintro past m rest rfl
  obtain ⟨e, hpast, hrest⟩ := h.split
  cases hrest with
  | command command term _ => exact congrArg (· + 1) hpast.eq_lastIndex
  | snapshot data term hi _ => exact fun m' hm' => (hpast.index_le hm').2.trans_lt hi

/-- Received and pending messages lead from the snapshot the server started with to
`lastApplied`. -/
def Ordered (nd : Node n C D) : Prop :=
  Leads nd.base (nd.received ++ nd.sending.map Sending.msg) nd.rf.lastApplied

/-- The oldest pending message goes first, and an installed snapshot is ahead of everything
applied. -/
def InOrder (c : Cluster n C D) : Action n C D → Prop
  | .send _ k => k = 0
  | .deliver k => ∀ p ∈ c.net[k]?, ∀ args ∈ p.body.snapshotArgs,
      (c.node p.callee).rf.currentTerm ≤ args.term →
      (c.node p.callee).rf.commitIndex < args.lastIncludedIndex →
      (c.node p.callee).rf.lastApplied < args.lastIncludedIndex
  | _ => True

instance (c : Cluster n C D) (a : Action n C D) : Decidable (InOrder c a) :=
  match a with
  | .send _ k => inferInstanceAs (Decidable (k = 0))
  | .deliver k => inferInstanceAs (Decidable (∀ p ∈ c.net[k]?, ∀ args ∈ p.body.snapshotArgs, _))
  | .startElection _ | .start _ _ | .broadcast _ _ | .drop _ | .pick _ | .snapshot _ _ _
  | .restart _ => .isTrue trivial

theorem snapshot_lastApplied {rf : Raft n C D} {index : ℕ} (bytes : Option D)
    (h : index ≤ rf.lastApplied) : (rf.snapshot index bytes).lastApplied = rf.lastApplied := by
  rcases rf.snapshot_cases index bytes with ⟨-, he⟩ | ⟨-, e, -, he⟩ | ⟨-, -, he⟩ <;> rw [he]
  all_goals exact max_eq_left h

theorem Ordered.step {sends : ℕ → Prop} {installs : InstallSnapshotArgs n C D → Prop}
    {nd nd' : Node n C D} (h : Ordered nd) (hd : nd.rf.Durable) (hsends : ∀ k, sends k → k = 0)
    (hinstalls : ∀ args, installs args → nd.rf.lastApplied < args.lastIncludedIndex)
    (hs : ServerStep sends installs nd nd') : Ordered nd' := by
  unfold Ordered at h ⊢
  cases hs with
  | steady _ _ _ lastApplied _ sending received base =>
    rw [sending, received, base, lastApplied]
    exact h
  | install args call allowed =>
    rw [List.map_append, ← List.append_assoc]
    exact h.append (.snapshot _ _ (hinstalls args allowed) (.nil _))
  | pick command term =>
    rw [List.map_append, ← List.append_assoc]
    exact h.append (.command command term (.nil _))
  | send k x pending allowed =>
    cases hsends k allowed
    have hfirst : nd.sending = x :: nd.sending.eraseIdx 0 := by
      cases hl : nd.sending with
      | nil => simp [hl] at pending
      | cons y ys =>
        rw [hl] at pending
        simpa using pending
    rw [hfirst] at h
    simpa using h
  | snapshot index bytes known =>
    obtain ⟨m, hm, rfl⟩ := List.mem_map.mp known
    have hle := (h.index_le (List.mem_append_left _ hm)).2
    change Leads _ _ (nd.rf.snapshot m.index bytes).lastApplied
    rw [snapshot_lastApplied bytes hle]
    exact h
  | restart =>
    have hmake := Raft.make_of_durable hd
    have hboth : (Raft.make nd.rf.me nd.rf.persister).lastIncludedIndex =
        (Raft.make nd.rf.me nd.rf.persister).lastApplied := by rw [hmake]
    change Leads (Raft.make nd.rf.me nd.rf.persister).lastIncludedIndex _ _
    rw [hboth]
    exact .nil _

/-- Gap-free delivery in every run whose sends and installations are in order. -/
theorem gapFree_of_inOrder (c : Cluster n C D)
    (h : Reaches Cluster.step InOrder (Cluster.init n C D) c) (i : Fin n) :
    GapFree (c.node i).base (c.node i).received := by
  have hordered : Ordered (c.node i) := by
    refine server_invariant h (fun i => .nil _) (fun c i nd hd hc hs => ?_) i
    refine hc.step hd (fun k hk => hk) ?_ hs
    rintro args ⟨hnew, hterm, k, p, hp, rfl, hbody, hg⟩
    exact hg p hp args (by simp [hbody, Rpc.snapshotArgs]) hterm hnew
  obtain ⟨e, hreceived, -⟩ := hordered.split
  exact hreceived.gapFree

/-- A follower that receives a command and then a snapshot ahead of it. -/
theorem gapFree_of_inOrder_snapshot : ∃ c : Cluster 3 ℕ ℕ,
    Reaches Cluster.step InOrder (Cluster.init 3 ℕ ℕ) c ∧
      (c.node 1).received.map ApplyMsg.index = [1, 2] ∧
      GapFree (c.node 1).base (c.node 1).received := by
  obtain ⟨c, hreach, hindex⟩ :=
    exists_reaches Cluster.step InOrder (Cluster.init 3 ℕ ℕ)
      [.startElection 0, .deliver 0, .deliver 1, .drop 0, .start 0 (some 7), .broadcast 0 1,
        .deliver 0, .deliver 0, .broadcast 0 1, .deliver 0, .drop 0, .pick 1, .start 0 (some 8),
        .broadcast 0 2, .deliver 0, .deliver 0, .pick 0, .send 0 0, .pick 0, .send 0 0,
        .snapshot 0 2 none, .broadcast 0 1, .deliver 0, .send 1 0, .send 1 0]
      (fun c => (c.node 1).received.map ApplyMsg.index = [1, 2]) (by decide +kernel)
  exact ⟨c, hreach, hindex, gapFree_of_inOrder c hreach 1⟩

/-- The applier of server 1 has picked the command at index 1 when the handler installs the
snapshot up to index 2; the snapshot is sent first. -/
theorem picked_command_overtaken : ∃ c : Cluster 3 ℕ ℕ,
    Reaches Cluster.step anyStep (Cluster.init 3 ℕ ℕ) c ∧
      ¬GapFree (c.node 1).base (c.node 1).received ∧
      (c.node 1).received.map ApplyMsg.index = [2, 1] := by
  obtain ⟨c, hreach, data, hreceived⟩ :=
    exists_reaches Cluster.step anyStep (Cluster.init 3 ℕ ℕ)
      [.startElection 0, .deliver 0, .deliver 1, .drop 0, .start 0 (some 7), .broadcast 0 1,
        .deliver 0, .deliver 0, .broadcast 0 1, .deliver 0, .drop 0, .pick 1, .start 0 (some 8),
        .broadcast 0 2, .deliver 0, .deliver 0, .pick 0, .send 0 0, .pick 0, .send 0 0,
        .snapshot 0 2 none, .broadcast 0 1, .deliver 0, .send 1 1, .send 1 0]
      (fun c => ∃ data, (c.node 1).received = [.snapshot data 1 2, .command (some 7) 1 1])
      ⟨_, by rfl, _, by rfl⟩
  refine ⟨c, hreach, fun h => ?_, by rw [hreceived]; rfl⟩
  have hgap : 1 = 2 + 1 := h [.snapshot data 1 2] _ [] hreceived
  omega

end DistributedLabs.Raft1
