import DistributedLabs.RaftApplyChannel

/-!
# What a server of `raft1` has saved

Outside its critical sections a server has saved what it would come back with: the
five values that the encoders write are the ones in memory, and the snapshot is the
data of the call that set `lastIncludedIndex`. That call is remembered beside the
cluster; no server reads this record.
-/

namespace DistributedLabs.Raft1
open TransitionRuns

variable {n : ℕ} {C D : Type}

/-- The five values that are saved. -/
def Raft.image (rf : Raft n C D) : ℕ × Option (Fin n) × List (Entry C) × ℕ × ℕ :=
  (rf.currentTerm, rf.votedFor, rf.logs, rf.lastIncludedIndex, rf.lastIncludedTerm)

/-- The call of `Snapshot` or `InstallSnapshot` in an action that goes as far as to set
`lastIncludedIndex`: its server, its index and its data. -/
def settingCall (c : Cluster n C D) : Action n C D → Option (Fin n × ℕ × Option D)
  | .snapshot i index bytes =>
    if index ≤ (c.node i).rf.lastIncludedIndex then none else some (i, index, bytes)
  | .deliver k => do
    let p ← c.net[k]?
    let args ← p.body.snapshotArgs
    if args.term < (c.node p.callee).rf.currentTerm then none
    else if args.lastIncludedIndex ≤ (c.node p.callee).rf.commitIndex then none
    else some (p.callee, args.lastIncludedIndex, args.data.bytes)
  | .startElection _ | .start _ _ | .broadcast _ _ | .drop _ | .pick _ | .send _ _ | .restart _ =>
    none

/-- For every server the last call that set its `lastIncludedIndex`. -/
abbrev Setters (n : ℕ) (D : Type) := Fin n → Option (ℕ × Option D)

def noteSetter (c : Cluster n C D) (a : Action n C D) (setters : Setters n D) : Setters n D :=
  match settingCall c a with
  | some (i, call) => Function.update setters i (some call)
  | none => setters

/-- The snapshot and its index stay. -/
structure KeepsSnapshot (rf rf' : Raft n C D) : Prop where
  index : rf'.lastIncludedIndex = rf.lastIncludedIndex
  snapshot : rf'.persister.snapshot = rf.persister.snapshot

namespace KeepsSnapshot
variable {rf : Raft n C D}

theorem refl (rf : Raft n C D) : KeepsSnapshot rf rf := ⟨rfl, rfl⟩

theorem observe (term : ℕ) : KeepsSnapshot rf (rf.observe term) := by
  rcases rf.observe_eq_or term with he | ⟨-, he⟩ <;> rw [he]
  · exact refl rf
  · exact ⟨rfl, rfl⟩

theorem requestVote (args : RequestVoteArgs n) : KeepsSnapshot rf (rf.requestVote args).1 := by
  rcases rf.requestVote_cases args with ⟨-, he⟩ | ⟨-, he⟩ | ⟨-, -, -, he⟩ <;> rw [he]
  · exact refl rf
  · exact observe args.term
  · exact ⟨rfl, rfl⟩

theorem appendEntries (h : rf.logs ≠ []) (args : AppendEntriesArgs n C) :
    KeepsSnapshot rf (rf.appendEntries args).1 := by
  rcases rf.appendEntries_cases h args with ⟨-, he⟩ | ⟨-, i, t, he⟩ | ⟨-, -, -, -, he⟩ <;> rw [he]
  · exact refl rf
  · exact ⟨rfl, rfl⟩
  · exact ⟨rfl, rfl⟩

theorem handleAppendEntriesReply (server : Fin n) (args : AppendEntriesArgs n C)
    (reply : AppendEntriesReply) :
    KeepsSnapshot rf (rf.handleAppendEntriesReply server args reply) := by
  rcases rf.handleAppendEntriesReply_cases server args reply with
    ⟨-, he⟩ | ⟨next, he⟩ | ⟨-, -, -, he⟩ <;> rw [he]
  · exact ⟨rfl, rfl⟩
  · exact ⟨rfl, rfl⟩
  · rcases (rf.noteMatch server args).commit_cases with hc | ⟨-, target, -, -, -, hc⟩ <;> rw [hc] <;>
      exact ⟨rfl, rfl⟩

theorem handleInstallSnapshotReply (server : Fin n) (args : InstallSnapshotArgs n C D)
    (reply : InstallSnapshotReply) :
    KeepsSnapshot rf (rf.handleInstallSnapshotReply server args reply) := by
  rcases rf.handleInstallSnapshotReply_cases server args reply with
    ⟨-, he⟩ | he | ⟨-, -, he⟩ <;> rw [he]
  · exact ⟨rfl, rfl⟩
  · exact refl rf
  · exact ⟨rfl, rfl⟩

theorem handleRequestVoteReply (nd : Node n C D) (args : RequestVoteArgs n)
    (reply : RequestVoteReply) :
    KeepsSnapshot nd.rf (nd.handleRequestVoteReply args reply).rf := by
  rcases nd.handleRequestVoteReply_cases args reply with
    hnd | ⟨-, hnd⟩ | ⟨-, -, -, hnd | ⟨-, hnd⟩⟩ <;> rw [hnd]
  · exact refl nd.rf
  · exact ⟨rfl, rfl⟩
  · exact ⟨rfl, rfl⟩
  · exact ⟨rfl, rfl⟩

theorem start (command : Option C) : KeepsSnapshot rf (rf.start command).1 := by
  by_cases hl : rf.state = .leader
  · rw [rf.start_of_leader hl]
    exact ⟨rfl, rfl⟩
  · rw [rf.start_of_not_leader hl]
    exact refl rf

theorem broadcastTo {server : Fin n} {r : Raft n C D × Raft.Request n C D}
    (hr : rf.broadcastTo server = some r) : KeepsSnapshot rf r.1 := by
  obtain ⟨next, he, -⟩ := rf.broadcastTo_cases hr
  rw [he]
  exact ⟨rfl, rfl⟩

theorem applier {r : Raft n C D × ApplyMsg C D} (hr : rf.applier = some r) :
    KeepsSnapshot rf r.1 := by
  obtain ⟨-, -, entry, -, rfl⟩ := rf.applier_cases hr
  exact ⟨rfl, rfl⟩

theorem make (h : rf.Durable) : KeepsSnapshot rf (Raft.make rf.me rf.persister) := by
  rw [Raft.make_of_durable h]
  exact ⟨rfl, rfl⟩

end KeepsSnapshot

/-- The snapshot is the data of the remembered call, or there has been none. -/
structure SavedBy (rf : Raft n C D) (setter : Option (ℕ × Option D)) : Prop where
  unset : setter = none → rf.lastIncludedIndex = 0 ∧ rf.persister.snapshot.bytes = none
  set : ∀ call ∈ setter, rf.lastIncludedIndex = call.1 ∧ rf.persister.snapshot.bytes = call.2

theorem SavedBy.kept {rf rf' : Raft n C D} {setter : Option (ℕ × Option D)}
    (h : SavedBy rf setter) (hk : KeepsSnapshot rf rf') : SavedBy rf' setter := by
  constructor
  · rw [hk.index, hk.snapshot]
    exact h.unset
  · rw [hk.index, hk.snapshot]
    exact h.set

def AllSavedBy (c : Cluster n C D) (setters : Setters n D) : Prop :=
  ∀ i, SavedBy (c.node i).rf (setters i)

section Steps
variable {c c' : Cluster n C D} {setters : Setters n D} {i : Fin n} {nd : Node n C D}

theorem AllSavedBy.kept (h : AllSavedBy c setters) (hnode : c'.node = Function.update c.node i nd)
    (hk : KeepsSnapshot (c.node i).rf nd.rf) : AllSavedBy c' setters := by
  intro j
  rw [hnode]
  rcases eq_or_ne j i with rfl | hj
  · rw [Function.update_self]
    exact (h j).kept hk
  · rw [Function.update_of_ne hj]
    exact h j

theorem AllSavedBy.set (h : AllSavedBy c setters) (hnode : c'.node = Function.update c.node i nd)
    {index : ℕ} {data : Option D} (hindex : nd.rf.lastIncludedIndex = index)
    (hdata : nd.rf.persister.snapshot.bytes = data) :
    AllSavedBy c' (Function.update setters i (some (index, data))) := by
  intro j
  rw [hnode]
  rcases eq_or_ne j i with rfl | hj
  · rw [Function.update_self, Function.update_self]
    refine ⟨nofun, ?_⟩
    rintro call ⟨⟩
    exact ⟨hindex, hdata⟩
  · rw [Function.update_of_ne hj, Function.update_of_ne hj]
    exact h j

theorem AllSavedBy.deliver {k : ℕ} {p : Packet n C D} (h : AllSavedBy c setters)
    (hd : ∀ i, (c.node i).rf.Durable) (hp : c.net[k]? = some p) :
    AllSavedBy (c.deliver p (c.net.eraseIdx k)) (noteSetter c (.deliver k) setters) := by
  have hcall : ∀ x, p.body.snapshotArgs = x → settingCall c (.deliver k) = x.bind fun args =>
      if args.term < (c.node p.callee).rf.currentTerm then none
      else if args.lastIncludedIndex ≤ (c.node p.callee).rf.commitIndex then none
      else some (p.callee, args.lastIncludedIndex, args.data.bytes) := by
    rintro x rfl
    simp [settingCall, hp]
  cases hbody : p.body with
  | requestVote args =>
    rw [noteSetter, hcall none (by rw [hbody]; rfl)]
    simp only [Cluster.deliver, hbody]
    exact h.kept rfl (.requestVote args)
  | requestVoteReply args r =>
    rw [noteSetter, hcall none (by rw [hbody]; rfl)]
    simp only [Cluster.deliver, hbody]
    by_cases halive : (c.node p.caller).incarnation = p.incarnation
    · rw [if_pos halive]
      exact h.kept rfl (.handleRequestVoteReply _ args r)
    · rw [if_neg halive]
      exact h
  | appendEntries args =>
    rw [noteSetter, hcall none (by rw [hbody]; rfl)]
    simp only [Cluster.deliver, hbody]
    exact h.kept rfl (.appendEntries (hd _).logs_ne args)
  | appendEntriesReply args r =>
    rw [noteSetter, hcall none (by rw [hbody]; rfl)]
    simp only [Cluster.deliver, hbody]
    split_ifs
    · exact h.kept rfl (.handleAppendEntriesReply _ args r)
    · exact h
  | installSnapshot args =>
    rw [noteSetter, hcall (some args) (by rw [hbody]; rfl), Option.bind_some]
    simp only [Cluster.deliver, hbody]
    rcases (c.node p.callee).rf.installSnapshot_cases args with
      ⟨hlt, he⟩ | ⟨hle, hcov, he⟩ | ⟨hle, hnew, he⟩ <;> simp only [he]
    · simp only [hlt, if_true]
      exact h.kept rfl (.refl _)
    · simp only [hle.not_gt, hcov, if_false, if_true]
      exact h.kept rfl (.observe args.term)
    · simp only [hle.not_gt, hnew.not_ge, if_false]
      exact h.set rfl rfl rfl
  | installSnapshotReply args r =>
    rw [noteSetter, hcall none (by rw [hbody]; rfl)]
    simp only [Cluster.deliver, hbody]
    split_ifs
    · exact h.kept rfl (.handleInstallSnapshotReply _ args r)
    · exact h

theorem AllSavedBy.step {a : Action n C D} (h : AllSavedBy c setters)
    (hd : ∀ i, (c.node i).rf.Durable) (hme : ∀ i, (c.node i).rf.me = i)
    (hs : c.step a = some c') : AllSavedBy c' (noteSetter c a setters) := by
  cases a with
  | startElection i =>
    cases hs
    exact h.kept rfl ⟨rfl, rfl⟩
  | start i command =>
    cases hs
    exact h.kept rfl (.start command)
  | broadcast i server =>
    obtain ⟨r, -, -, hr, rfl⟩ := Cluster.step_broadcast hs
    exact h.kept rfl (.broadcastTo hr)
  | deliver k =>
    obtain ⟨p, hp, rfl⟩ := Option.map_eq_some_iff.mp hs
    exact h.deliver hd hp
  | drop k =>
    obtain ⟨-, rfl⟩ := Cluster.step_drop hs
    exact h
  | pick i =>
    obtain ⟨r, hr, rfl⟩ := Cluster.step_pick hs
    exact h.kept rfl (.applier hr)
  | send i k =>
    obtain ⟨x, -, rfl⟩ := Option.map_eq_some_iff.mp hs
    exact h.kept rfl (.refl _)
  | snapshot i index bytes =>
    obtain ⟨-, rfl⟩ := Cluster.step_snapshot hs
    unfold noteSetter settingCall
    rcases (c.node i).rf.snapshot_cases index bytes with
      ⟨hle, he⟩ | ⟨hgt, e, -, he⟩ | ⟨hgt, -, he⟩ <;> simp only [he]
    · simp only [hle, if_true]
      exact h.kept rfl (.refl _)
    · simp only [hgt.not_ge, if_false]
      exact h.set rfl rfl rfl
    · simp only [hgt.not_ge, if_false]
      exact h.set rfl rfl rfl
  | restart i =>
    cases hs
    have hmake := KeepsSnapshot.make (hd i)
    rw [hme i] at hmake
    exact h.kept rfl hmake

end Steps

theorem Raft.Durable.image_readPersist {rf : Raft n C D} (h : rf.Durable) :
    (∀ rf₀ : Raft n C D, rf.persister.raftstate ≠ [] →
      (rf₀.readPersist rf.persister.raftstate).image = rf.image) ∧
    (rf.persister.raftstate = [] → rf.image = (0, none, [⟨0, none⟩], 0, 0)) := by
  rcases h.saved with hs | ⟨hs, hterm, hvote, hlogs, hidx, hidxTerm⟩
  · rw [hs]
    refine ⟨fun rf₀ _ => ?_, nofun⟩
    simp [Raft.encodeState, Raft.readPersist, Raft.image, Raft.voteOfCode_voteCode]
  · refine ⟨fun _ hne => absurd hs hne, fun _ => ?_⟩
    simp [Raft.image, hterm, hvote, hlogs, hidx, hidxTerm]

/-- In every state of every run, for every server: the saved bytes decode to the five values in
memory, or nothing has been saved and they are the initial ones; the saved snapshot is the data of
the call that set `lastIncludedIndex`; and `Make` on the persister brings the five values back,
with `commitIndex` and `lastApplied` at `lastIncludedIndex`. -/
theorem persisted_image_current (c : Cluster n C D) (setters : Setters n D)
    (h : Reaches (recording Cluster.step noteSetter) anyStep (Cluster.init n C D, fun _ => none)
      (c, setters)) (i : Fin n) :
    (∀ rf₀ : Raft n C D, (c.node i).rf.persister.raftstate ≠ [] →
      (rf₀.readPersist (c.node i).rf.persister.raftstate).image = (c.node i).rf.image) ∧
    ((c.node i).rf.persister.raftstate = [] →
      (c.node i).rf.image = (0, none, [⟨0, none⟩], 0, 0)) ∧
    (setters i = none → (c.node i).rf.lastIncludedIndex = 0 ∧
      (c.node i).rf.persister.snapshot.bytes = none) ∧
    (∀ call ∈ setters i, (c.node i).rf.lastIncludedIndex = call.1 ∧
      (c.node i).rf.persister.snapshot.bytes = call.2) ∧
    (Raft.make i (c.node i).rf.persister).image = (c.node i).rf.image ∧
    (Raft.make i (c.node i).rf.persister).persister = (c.node i).rf.persister ∧
    (Raft.make i (c.node i).rf.persister).commitIndex = (c.node i).rf.lastIncludedIndex ∧
    (Raft.make i (c.node i).rf.persister).lastApplied = (c.node i).rf.lastIncludedIndex := by
  have hkept : ∀ (s : Cluster n C D × Setters n D) a s',
      (∀ i, (s.1.node i).rf.Durable ∧ (s.1.node i).rf.me = i) ∧ AllSavedBy s.1 s.2 → anyStep s a →
      recording Cluster.step noteSetter s a = some s' →
        (∀ i, (s'.1.node i).rf.Durable ∧ (s'.1.node i).rf.me = i) ∧ AllSavedBy s'.1 s'.2 := by
    rintro s a s' ⟨hd, hsaved⟩ - hs
    obtain ⟨hstep, hnote⟩ := recording_eq_some hs
    refine ⟨durable_step hd hstep, ?_⟩
    rw [hnote]
    exact hsaved.step (fun i => (hd i).1) (fun i => (hd i).2) hstep
  have hinit : AllSavedBy (Cluster.init n C D) fun _ => none := fun i => ⟨fun _ => ⟨rfl, rfl⟩, nofun⟩
  obtain ⟨hd, hsaved⟩ := h.invariant ⟨fun i => ⟨Raft.durable_make i, rfl⟩, hinit⟩ hkept
  obtain ⟨hdurable, hme⟩ := hd i
  obtain ⟨hdecode, hempty⟩ := hdurable.image_readPersist
  have hmake := Raft.make_of_durable hdurable
  rw [hme] at hmake
  refine ⟨hdecode, hempty, (hsaved i).unset, (hsaved i).set, ?_⟩
  rw [hmake]
  exact ⟨rfl, rfl, rfl, rfl⟩

/-- Server 1 installs the snapshot that server 0 has taken at index 2. -/
theorem persisted_image_current_installed : ∃ (c : Cluster 3 ℕ ℕ) (setters : Setters 3 ℕ),
    Reaches (recording Cluster.step noteSetter) anyStep (Cluster.init 3 ℕ ℕ, fun _ => none)
      (c, setters) ∧ setters 1 = some (2, some 5) ∧
    (c.node 1).rf.lastIncludedIndex = 2 ∧ (c.node 1).rf.persister.snapshot.bytes = some 5 ∧
    (Raft.make 1 (c.node 1).rf.persister).image = (c.node 1).rf.image := by
  obtain ⟨⟨c, setters⟩, hreach, hset⟩ :=
    exists_reaches (recording Cluster.step noteSetter) anyStep
      (Cluster.init 3 ℕ ℕ, (fun _ => none : Setters 3 ℕ))
      [.startElection 0, .deliver 0, .deliver 1, .drop 0, .start 0 (some 7), .broadcast 0 1,
        .deliver 0, .deliver 0, .start 0 (some 8), .broadcast 0 2, .deliver 0, .deliver 0,
        .pick 0, .send 0 0, .pick 0, .send 0 0, .snapshot 0 2 (some 5), .broadcast 0 1, .deliver 0]
      (fun s => s.2 1 = some (2, some 5)) (by decide +kernel)
  obtain ⟨-, -, -, hcall, himage, -⟩ := persisted_image_current c setters hreach 1
  obtain ⟨hindex, hdata⟩ := hcall _ hset
  exact ⟨c, setters, hreach, hset, hindex, hdata, himage⟩

end DistributedLabs.Raft1
