import DistributedLabs.RaftServer
import DistributedLabs.TransitionRuns

/-!
# A cluster of `raft1` servers

Servers, the requests and replies in flight, and the goroutines that are about to
send on `applyCh`. Every action is one critical section, one delivery or loss of
a message, one send on `applyCh`, one call of the service, or a crash followed by
`Make` on the persister.

A request stays in flight until it is delivered or lost, in any order, and the
same holds of its reply. A reply carries the arguments of its call, as the
calling goroutine has them in scope, and reaches only the `Raft` object that made
the call: after a restart the old goroutines are gone. Where a critical section
panics there is no successor; what is left of such a server is its restart.
-/

namespace DistributedLabs.Raft1
open TransitionRuns

variable {n : ℕ} {C D : Type}

/-- What travels between two servers. -/
inductive Rpc (n : ℕ) (C D : Type) where
  | requestVote (args : RequestVoteArgs n)
  | requestVoteReply (args : RequestVoteArgs n) (reply : RequestVoteReply)
  | appendEntries (args : AppendEntriesArgs n C)
  | appendEntriesReply (args : AppendEntriesArgs n C) (reply : AppendEntriesReply)
  | installSnapshot (args : InstallSnapshotArgs n C D)
  | installSnapshotReply (args : InstallSnapshotArgs n C D) (reply : InstallSnapshotReply)
  deriving DecidableEq, Repr

def Rpc.voteArgs : Rpc n C D → Option (RequestVoteArgs n)
  | .requestVote args => some args
  | _ => none

def Rpc.appendReply : Rpc n C D → Option (AppendEntriesArgs n C × AppendEntriesReply)
  | .appendEntriesReply args reply => some (args, reply)
  | _ => none

def Rpc.snapshotArgs : Rpc n C D → Option (InstallSnapshotArgs n C D)
  | .installSnapshot args => some args
  | _ => none

def Rpc.snapshotReply : Rpc n C D → Option (InstallSnapshotArgs n C D × InstallSnapshotReply)
  | .installSnapshotReply args reply => some (args, reply)
  | _ => none

structure Packet (n : ℕ) (C D : Type) where
  caller : Fin n
  callee : Fin n
  /-- which `Raft` object of the caller made the call -/
  incarnation : ℕ
  body : Rpc n C D
  deriving DecidableEq, Repr

/-- The call a snapshot handler answers. -/
structure SnapshotCall (n : ℕ) (C D : Type) where
  caller : Fin n
  incarnation : ℕ
  args : InstallSnapshotArgs n C D
  deriving DecidableEq, Repr

/-- The handler never writes the reply's `Term`. -/
def SnapshotCall.reply (call : SnapshotCall n C D) (callee : Fin n) : Packet n C D :=
  ⟨call.caller, callee, call.incarnation, .installSnapshotReply call.args ⟨0⟩⟩

/-- A goroutine about to send on `applyCh`: the applier, or a snapshot handler, which
answers its call after the send. -/
structure Sending (n : ℕ) (C D : Type) where
  msg : ApplyMsg C D
  call : Option (SnapshotCall n C D)
  deriving DecidableEq, Repr

structure Node (n : ℕ) (C D : Type) where
  rf : Raft n C D
  incarnation : ℕ
  /-- `votes` and `electedFlag` of the `StartElection` call of the current term; replies
  to earlier calls are discarded before they look at them -/
  votes : ℕ
  electedFlag : Bool
  /-- in the order of the critical sections they come from -/
  sending : List (Sending n C D)
  /-- what the service received from this object, in order -/
  received : List (ApplyMsg C D)
  /-- `lastIncludedIndex` when this object was made -/
  base : ℕ

/-- The cluster, with three history variables: every vote given (a candidacy counts as a
vote for oneself), every server that became leader, everything sent on `applyCh`. -/
structure Cluster (n : ℕ) (C D : Type) where
  node : Fin n → Node n C D
  net : List (Packet n C D)
  granted : List (Fin n × ℕ × Fin n)
  elected : List (Fin n × ℕ)
  applied : List (Fin n × ApplyMsg C D)

inductive Action (n : ℕ) (C D : Type) where
  | startElection (i : Fin n)
  | start (i : Fin n) (command : Option C)
  | broadcast (i server : Fin n)
  | deliver (k : ℕ)
  | drop (k : ℕ)
  | pick (i : Fin n)
  | send (i : Fin n) (k : ℕ)
  | snapshot (i : Fin n) (index : ℕ) (bytes : Option D)
  | restart (i : Fin n)

namespace Node

def boot (me : Fin n) (persister : Persister C D) (incarnation : ℕ) : Node n C D :=
  let rf := Raft.make me persister
  { rf := rf
    incarnation := incarnation
    votes := 0
    electedFlag := false
    sending := []
    received := []
    base := rf.lastIncludedIndex }

/-- The goroutine of `StartElection` that waited for this reply. -/
def handleRequestVoteReply (nd : Node n C D) (args : RequestVoteArgs n)
    (reply : RequestVoteReply) : Node n C D :=
  if nd.rf.state ≠ .candidate ∨ nd.rf.currentTerm ≠ args.term then nd
  else if reply.term > nd.rf.currentTerm then { nd with rf := nd.rf.stepDown reply.term }
  else if reply.voteGranted then
    let votes := nd.votes + 1
    if votes > n / 2 then
      if nd.electedFlag then { nd with votes := votes }
      else { nd with votes := votes, electedFlag := true, rf := nd.rf.becomeLeader }
    else { nd with votes := votes }
  else nd

/-- The applier is blocked in a send. -/
def applierBusy (nd : Node n C D) : Bool := nd.sending.any (·.call.isNone)

end Node

namespace Cluster

def init (n : ℕ) (C D : Type) : Cluster n C D where
  node i := Node.boot i (makePersister C D) 0
  net := []
  granted := []
  elected := []
  applied := []

def setNode (c : Cluster n C D) (i : Fin n) (nd : Node n C D) : Cluster n C D :=
  { c with node := Function.update c.node i nd }

def setRf (c : Cluster n C D) (i : Fin n) (rf : Raft n C D) : Cluster n C D :=
  c.setNode i { c.node i with rf := rf }

/-- Vote requests to all other servers. -/
def voteRequests (i : Fin n) (incarnation : ℕ) (args : RequestVoteArgs n) :
    List (Packet n C D) :=
  ((List.finRange n).filter (· ≠ i)).map fun server => ⟨i, server, incarnation, .requestVote args⟩

def startElection (c : Cluster n C D) (i : Fin n) : Cluster n C D :=
  let r := (c.node i).rf.startElection
  { c.setNode i { c.node i with rf := r.1, votes := 1, electedFlag := false } with
    net := c.net ++ voteRequests i (c.node i).incarnation r.2
    granted := (i, r.2.term, i) :: c.granted }

/-- One packet reaches its destination; `net` is what stays in flight. -/
def deliver (c : Cluster n C D) (p : Packet n C D) (net : List (Packet n C D)) :
    Cluster n C D :=
  let alive := (c.node p.caller).incarnation = p.incarnation
  match p.body with
  | .requestVote args =>
    let r := (c.node p.callee).rf.requestVote args
    { c.setRf p.callee r.1 with
      net := net ++ [{ p with body := .requestVoteReply args r.2 }]
      granted :=
        if r.2.voteGranted then (p.callee, args.term, args.candidateId) :: c.granted
        else c.granted }
  | .requestVoteReply args reply =>
    if alive then
      let nd := (c.node p.caller).handleRequestVoteReply args reply
      { c.setNode p.caller nd with
        net := net
        elected :=
          if nd.rf.state = .leader ∧ (c.node p.caller).rf.state ≠ .leader then
            (p.caller, nd.rf.currentTerm) :: c.elected
          else c.elected }
    else { c with net := net }
  | .appendEntries args =>
    let r := (c.node p.callee).rf.appendEntries args
    { c.setRf p.callee r.1 with
      net := net ++ [{ p with body := .appendEntriesReply args r.2 }] }
  | .appendEntriesReply args reply =>
    if alive then
      { c.setRf p.caller ((c.node p.caller).rf.handleAppendEntriesReply p.callee args reply) with
        net := net }
    else { c with net := net }
  | .installSnapshot args =>
    let r := (c.node p.callee).rf.installSnapshot args
    let call : SnapshotCall n C D := ⟨p.caller, p.incarnation, args⟩
    match r.2 with
    | none => { c.setRf p.callee r.1 with net := net ++ [call.reply p.callee] }
    | some msg =>
      { c.setNode p.callee
          { c.node p.callee with
            rf := r.1
            sending := (c.node p.callee).sending ++ [⟨msg, some call⟩] } with
        net := net }
  | .installSnapshotReply args reply =>
    if alive then
      { c.setRf p.caller ((c.node p.caller).rf.handleInstallSnapshotReply p.callee args reply) with
        net := net }
    else { c with net := net }

def step (c : Cluster n C D) : Action n C D → Option (Cluster n C D)
  | .startElection i => some (c.startElection i)
  | .start i command => some (c.setRf i ((c.node i).rf.start command).1)
  | .broadcast i server =>
    if (c.node i).rf.state = .leader ∧ server ≠ i then
      ((c.node i).rf.broadcastTo server).map fun r =>
        let body : Rpc n C D := match r.2 with
          | .appendEntries args => .appendEntries args
          | .installSnapshot args => .installSnapshot args
        { c.setRf i r.1 with net := c.net ++ [⟨i, server, (c.node i).incarnation, body⟩] }
    else none
  | .deliver k => (c.net[k]?).map fun p => c.deliver p (c.net.eraseIdx k)
  | .drop k => if k < c.net.length then some { c with net := c.net.eraseIdx k } else none
  | .pick i =>
    if (c.node i).applierBusy then none
    else (c.node i).rf.applier.map fun r =>
      c.setNode i { c.node i with rf := r.1, sending := (c.node i).sending ++ [⟨r.2, none⟩] }
  | .send i k =>
    ((c.node i).sending[k]?).map fun s =>
      { c.setNode i
          { c.node i with
            sending := (c.node i).sending.eraseIdx k
            received := (c.node i).received ++ [s.msg] } with
        net := c.net ++ (s.call.map (·.reply i)).toList
        applied := (i, s.msg) :: c.applied }
  | .snapshot i index bytes =>
    if index ∈ (c.node i).received.map ApplyMsg.index then
      some (c.setRf i ((c.node i).rf.snapshot index bytes))
    else none
  | .restart i =>
    some (c.setNode i (Node.boot i (c.node i).rf.persister ((c.node i).incarnation + 1)))

section Inversion
variable {c c' : Cluster n C D} {i : Fin n}

theorem step_broadcast {server : Fin n} (hs : c.step (.broadcast i server) = some c') :
    ∃ r, (c.node i).rf.state = .leader ∧ server ≠ i ∧ (c.node i).rf.broadcastTo server = some r ∧
      c' = { c.setRf i r.1 with
        net := c.net ++ [⟨i, server, (c.node i).incarnation, match r.2 with
          | .appendEntries args => .appendEntries args
          | .installSnapshot args => .installSnapshot args⟩] } := by
  simp only [step] at hs
  split_ifs at hs with hgo
  obtain ⟨r, hr, rfl⟩ := Option.map_eq_some_iff.mp hs
  exact ⟨r, hgo.1, hgo.2, hr, rfl⟩

theorem step_drop {k : ℕ} (hs : c.step (.drop k) = some c') :
    k < c.net.length ∧ c' = { c with net := c.net.eraseIdx k } := by
  simp only [step] at hs
  split_ifs at hs with hk
  cases hs
  exact ⟨hk, rfl⟩

theorem step_pick (hs : c.step (.pick i) = some c') :
    ∃ r, (c.node i).rf.applier = some r ∧ c' = c.setNode i
      { c.node i with rf := r.1, sending := (c.node i).sending ++ [⟨r.2, none⟩] } := by
  simp only [step] at hs
  split_ifs at hs
  obtain ⟨r, hr, rfl⟩ := Option.map_eq_some_iff.mp hs
  exact ⟨r, hr, rfl⟩

theorem step_snapshot {index : ℕ} {bytes : Option D}
    (hs : c.step (.snapshot i index bytes) = some c') :
    index ∈ (c.node i).received.map ApplyMsg.index ∧
      c' = c.setRf i ((c.node i).rf.snapshot index bytes) := by
  simp only [step] at hs
  split_ifs at hs with hidx
  cases hs
  exact ⟨hidx, rfl⟩

end Inversion

end Cluster

end DistributedLabs.Raft1
