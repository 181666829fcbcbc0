import Mathlib.Data.List.Sort
import Mathlib.Data.Fintype.Basic
import Mathlib.Logic.Function.Basic
import Mathlib.Tactic.Simps.Basic

/-!
# One server of `raft1`

The state of a server and every critical section of `raft.go` as a function on
it. A critical section runs under `rf.mu`, so it is atomic; what happens between
two of them (network, timers, sends on `applyCh`) belongs to the cluster. Go's
`-1` in `votedFor` is `none`. The index arithmetic of the source never goes below
zero except where `getLogTerm` tests for it.

`labgob` is taken to decode what it encoded, so saved bytes are the list of the
encoded values. The entries a snapshot stands for are recorded beside its bytes;
no function reads this record.
-/

namespace DistributedLabs.Raft1

structure Entry (C : Type) where
  term : ℕ
  command : Option C
  deriving DecidableEq, Repr

inductive RaftState where
  | leader | follower | candidate
  deriving DecidableEq, Repr

/-- One value as the encoder writes it. -/
inductive GobValue (C : Type) where
  | int (v : ℤ)
  | entries (l : List (Entry C))
  deriving DecidableEq, Repr

/-- The service's bytes, with the log entries they stand for as a history variable. -/
structure Snapshot (C D : Type) where
  bytes : Option D
  entries : List (Entry C)
  deriving DecidableEq, Repr

structure Persister (C D : Type) where
  raftstate : List (GobValue C)
  snapshot : Snapshot C D
  deriving DecidableEq, Repr

def makePersister (C D : Type) : Persister C D := ⟨[], ⟨none, []⟩⟩

/-- Messages on `applyCh`. -/
inductive ApplyMsg (C D : Type) where
  | command (command : Option C) (commandIndex : ℕ) (commandTerm : ℤ)
  | snapshot (snapshot : Snapshot C D) (snapshotTerm snapshotIndex : ℕ)
  deriving DecidableEq, Repr

/-- `CommandIndex` or `SnapshotIndex`. -/
def ApplyMsg.index {C D : Type} : ApplyMsg C D → ℕ
  | .command _ i _ => i
  | .snapshot _ _ i => i

structure RequestVoteArgs (n : ℕ) where
  term : ℕ
  candidateId : Fin n
  lastLogIndex : ℕ
  lastLogTerm : ℤ
  deriving DecidableEq, Repr

structure RequestVoteReply where
  term : ℕ
  voteGranted : Bool
  deriving DecidableEq, Repr

structure AppendEntriesArgs (n : ℕ) (C : Type) where
  term : ℕ
  leaderId : Fin n
  prevLogIndex : ℕ
  prevLogTerm : ℤ
  leaderCommit : ℕ
  entries : List (Entry C)
  deriving DecidableEq, Repr

structure AppendEntriesReply where
  term : ℕ
  success : Bool
  conflictLogIndex : ℕ
  conflictLogTerm : ℤ
  deriving DecidableEq, Repr

structure InstallSnapshotArgs (n : ℕ) (C D : Type) where
  term : ℕ
  leaderId : Fin n
  lastIncludedIndex : ℕ
  lastIncludedTerm : ℕ
  data : Snapshot C D
  deriving DecidableEq, Repr

structure InstallSnapshotReply where
  term : ℕ
  deriving DecidableEq, Repr

structure Raft (n : ℕ) (C D : Type) where
  me : Fin n
  persister : Persister C D
  currentTerm : ℕ
  votedFor : Option (Fin n)
  logs : List (Entry C)
  state : RaftState
  commitIndex : ℕ
  lastApplied : ℕ
  nextIndex : Fin n → ℕ
  matchIndex : Fin n → ℕ
  lastIncludedIndex : ℕ
  lastIncludedTerm : ℕ

namespace Raft

variable {n : ℕ} {C D : Type}

/-- `votedFor` as the `int` it is encoded as. -/
def voteCode : Option (Fin n) → ℤ
  | none => -1
  | some c => c.val

def voteOfCode (v : ℤ) : Option (Fin n) :=
  if h : v.toNat < n then if v < 0 then none else some ⟨v.toNat, h⟩ else none

def save (rf : Raft n C D) (raftstate : List (GobValue C)) (snapshot : Snapshot C D) :
    Raft n C D := { rf with persister := ⟨raftstate, snapshot⟩ }

@[simps! me currentTerm votedFor logs state commitIndex lastApplied nextIndex matchIndex
  lastIncludedIndex lastIncludedTerm]
def persist (rf : Raft n C D) : Raft n C D :=
  rf.save [.int rf.currentTerm, .int (voteCode rf.votedFor), .entries rf.logs,
    .int rf.lastIncludedIndex, .int rf.lastIncludedTerm] rf.persister.snapshot

def encodeState (rf : Raft n C D) : List (GobValue C) :=
  [.int rf.currentTerm, .int (voteCode rf.votedFor), .entries rf.logs,
    .int rf.lastIncludedIndex, .int rf.lastIncludedTerm]

def readPersist (rf : Raft n C D) : List (GobValue C) → Raft n C D
  | .int currentTerm :: .int votedFor :: .entries logs :: .int lastIncludedIndex ::
      .int lastIncludedTerm :: _ =>
    { rf with
      currentTerm := currentTerm.toNat
      votedFor := voteOfCode votedFor
      logs := logs
      lastIncludedIndex := lastIncludedIndex.toNat
      lastIncludedTerm := lastIncludedTerm.toNat }
  | _ => rf

def getFirstLogIndex (rf : Raft n C D) : ℕ := rf.lastIncludedIndex

def getLastLogIndex (rf : Raft n C D) : ℕ := rf.lastIncludedIndex + rf.logs.length - 1

/-- The term of a log slot; `logs` always has its dummy head, so slot 0 exists. -/
def slotTerm (logs : List (Entry C)) (slot : ℕ) : ℤ :=
  match logs[slot]? with
  | some e => e.term
  | none => -1

def getLogTerm (rf : Raft n C D) (raftIndex : ℕ) : ℤ :=
  if raftIndex = rf.getFirstLogIndex then slotTerm rf.logs 0
  else if raftIndex < rf.getFirstLogIndex then -1
  else slotTerm rf.logs (raftIndex - rf.getFirstLogIndex)

def snapshot (rf : Raft n C D) (index : ℕ) (bytes : Option D) : Raft n C D :=
  if index ≤ rf.lastIncludedIndex then rf
  else
    let relativeIndex := index - rf.lastIncludedIndex
    let entries := rf.persister.snapshot.entries ++ rf.logs.tail.take relativeIndex
    let trimmed : Raft n C D :=
      match rf.logs[relativeIndex]? with
      | some e => { rf with lastIncludedTerm := e.term, logs := rf.logs.drop relativeIndex }
      | none => { rf with lastIncludedIndex := 0, logs := [⟨rf.lastIncludedTerm, none⟩] }
    let headed : Raft n C D :=
      { trimmed with
        lastIncludedIndex := index
        logs := trimmed.logs.set 0 ⟨trimmed.lastIncludedTerm, none⟩
        commitIndex := if trimmed.commitIndex < index then index else trimmed.commitIndex
        lastApplied := if trimmed.lastApplied < index then index else trimmed.lastApplied }
    headed.save headed.encodeState ⟨bytes, entries⟩

def requestVote (rf : Raft n C D) (args : RequestVoteArgs n) : Raft n C D × RequestVoteReply :=
  if args.term < rf.currentTerm then (rf, ⟨rf.currentTerm, false⟩)
  else
    let rf : Raft n C D :=
      if args.term > rf.currentTerm then
        { rf with votedFor := none, currentTerm := args.term, state := .follower }.persist
      else rf
    if rf.votedFor = some args.candidateId ∨ rf.votedFor = none then
      let lastLogIndex := rf.getLastLogIndex
      let lastLogTerm := rf.getLogTerm lastLogIndex
      if lastLogTerm < args.lastLogTerm ∨
          lastLogTerm = args.lastLogTerm ∧ lastLogIndex ≤ args.lastLogIndex then
        let rf : Raft n C D :=
          { rf with
            votedFor := some args.candidateId
            currentTerm := args.term
            state := .follower }.persist
        (rf, ⟨rf.currentTerm, true⟩)
      else (rf, ⟨rf.currentTerm, false⟩)
    else (rf, ⟨rf.currentTerm, false⟩)

/-- The loop over the overlap; the list is `args.Entries[entriesIndex:]`. -/
def mergeEntries (rf : Raft n C D) (insertIndex : ℕ) : List (Entry C) → Raft n C D
  | [] => rf
  | e :: rest =>
    if insertIndex > rf.getLastLogIndex then { rf with logs := rf.logs ++ e :: rest }.persist
    else if rf.getLogTerm insertIndex ≠ e.term then
      { rf with logs := rf.logs.take (insertIndex - rf.getFirstLogIndex) ++ e :: rest }.persist
    else mergeEntries rf (insertIndex + 1) rest

/-- `tempIndex + 1` at the end of the conflict search, from `tempIndex + 1`. -/
def conflictIndex (rf : Raft n C D) (conflictLogTerm : ℤ) : ℕ → ℕ
  | 0 => 0
  | tempIndex + 1 =>
    if tempIndex > rf.lastIncludedIndex then
      if rf.getLogTerm tempIndex < conflictLogTerm then tempIndex + 1
      else conflictIndex rf conflictLogTerm tempIndex
    else tempIndex + 1

/-- `commitIndex` as an accepted request sets it, with no regard to its old value. -/
def followCommit (rf : Raft n C D) (args : AppendEntriesArgs n C) : Raft n C D :=
  let indexOfLastNewEntry := args.prevLogIndex + args.entries.length
  { rf with commitIndex :=
      if args.leaderCommit < indexOfLastNewEntry then args.leaderCommit
      else indexOfLastNewEntry }

def appendEntries (rf : Raft n C D) (args : AppendEntriesArgs n C) :
    Raft n C D × AppendEntriesReply :=
  let reply : AppendEntriesReply := ⟨rf.currentTerm, false, 0, 0⟩
  if args.term < rf.currentTerm then (rf, reply)
  else
    let rf : Raft n C D :=
      { rf with currentTerm := args.term, state := .follower, votedFor := none }.persist
    let lastLogIndex := rf.getLastLogIndex
    if args.prevLogIndex = lastLogIndex ∧ args.prevLogTerm = rf.getLogTerm lastLogIndex then
      let rf : Raft n C D := { rf with logs := rf.logs ++ args.entries }.persist
      (rf.followCommit args, { reply with success := true })
    else if args.prevLogIndex ≤ rf.getLastLogIndex ∧
        args.prevLogIndex ≥ rf.getFirstLogIndex then
      if args.prevLogTerm = rf.getLogTerm args.prevLogIndex then
        let rf := rf.mergeEntries (args.prevLogIndex + 1) args.entries
        (rf.followCommit args, { reply with success := true })
      else
        let conflictLogTerm := rf.getLogTerm args.prevLogIndex
        (rf, { reply with
          conflictLogTerm := conflictLogTerm
          conflictLogIndex := rf.conflictIndex conflictLogTerm args.prevLogIndex })
    else if args.prevLogIndex < rf.getFirstLogIndex then
      (rf, { reply with
        conflictLogIndex := rf.getFirstLogIndex
        conflictLogTerm := rf.getLogTerm rf.getFirstLogIndex })
    else
      (rf, { reply with
        conflictLogIndex := rf.getLastLogIndex + 1
        conflictLogTerm := rf.getLogTerm rf.getLastLogIndex })

def matchLog (rf : Raft n C D) (index term : ℕ) : Bool :=
  if index ≤ rf.getFirstLogIndex ∨ index > rf.getLastLogIndex then false
  else rf.getLogTerm index = term

/-- The locked part of the handler, with the message it then sends on `applyCh`. The
reply's `Term` is never written. -/
def installSnapshot (rf : Raft n C D) (args : InstallSnapshotArgs n C D) :
    Raft n C D × Option (ApplyMsg C D) :=
  if args.term < rf.currentTerm then (rf, none)
  else
    let rf : Raft n C D :=
      if args.term > rf.currentTerm then
        { rf with currentTerm := args.term, state := .follower, votedFor := none }.persist
      else rf
    if args.lastIncludedIndex ≤ rf.commitIndex then (rf, none)
    else
      let logs :=
        if rf.matchLog args.lastIncludedIndex args.lastIncludedTerm then
          rf.logs.drop (args.lastIncludedIndex - rf.lastIncludedIndex)
        else [⟨args.lastIncludedTerm, none⟩]
      let rf : Raft n C D :=
        { rf with
          logs := logs.modify 0 fun head => { head with command := none }
          commitIndex := args.lastIncludedIndex
          lastApplied := args.lastIncludedIndex
          lastIncludedIndex := args.lastIncludedIndex
          lastIncludedTerm := args.lastIncludedTerm }
      (rf.save rf.encodeState args.data,
        some (.snapshot args.data args.lastIncludedTerm args.lastIncludedIndex))

def startElection (rf : Raft n C D) : Raft n C D × RequestVoteArgs n :=
  let rf : Raft n C D :=
    { rf with
      state := .candidate
      currentTerm := rf.currentTerm + 1
      votedFor := some rf.me }.persist
  (rf, ⟨rf.currentTerm, rf.me, rf.getLastLogIndex, rf.getLogTerm rf.getLastLogIndex⟩)

/-- Leader initialisation once a majority of votes is in. -/
def becomeLeader (rf : Raft n C D) : Raft n C D :=
  let currentLastIndex := rf.getLastLogIndex
  { rf with
    state := .leader
    nextIndex := fun _ => currentLastIndex + 1
    matchIndex := Function.update (fun _ => 0) rf.me currentLastIndex }

/-- The new state with `(index, term, isLeader)`. -/
def start (rf : Raft n C D) (command : Option C) : Raft n C D × ℤ × ℕ × Bool :=
  if rf.state = .leader then
    let index := rf.getLastLogIndex + 1
    let entry : Entry C := ⟨rf.currentTerm, command⟩
    let appended : Raft n C D := { rf with logs := rf.logs ++ [entry] }.persist
    ({ appended with
        matchIndex := Function.update rf.matchIndex rf.me (rf.matchIndex rf.me + 1) },
      index, rf.currentTerm, true)
  else (rf, -1, rf.currentTerm, false)

def commit (rf : Raft n C D) : Raft n C D :=
  if rf.state ≠ .leader then rf
  else
    match ((List.ofFn rf.matchIndex).insertionSort (· ≤ ·))[(n - 1) / 2]? with
    | none => rf
    | some target =>
      if target > rf.commitIndex ∧ rf.getLogTerm target = rf.currentTerm then
        { rf with commitIndex := target }
      else rf

def batchSize : ℕ := 200

/-- The request one goroutine of `BroadcastAppendEntries` sends. -/
inductive Request (n : ℕ) (C D : Type) where
  | appendEntries (args : AppendEntriesArgs n C)
  | installSnapshot (args : InstallSnapshotArgs n C D)

/-- The locked part of one goroutine of `BroadcastAppendEntries`, on a leader. The result
is `none` when `make` is called with a negative capacity, which panics. -/
def broadcastTo (rf : Raft n C D) (server : Fin n) : Option (Raft n C D × Request n C D) :=
  let rf : Raft n C D :=
    if rf.nextIndex server = 0 then { rf with nextIndex := Function.update rf.nextIndex server 1 }
    else rf
  let nextIndex := rf.nextIndex server
  if nextIndex > rf.getFirstLogIndex then
    let endIndex := min (nextIndex + batchSize) (rf.getLastLogIndex + 1)
    if endIndex < nextIndex then none
    else some (rf, .appendEntries
      { term := rf.currentTerm
        leaderId := rf.me
        prevLogIndex := nextIndex - 1
        prevLogTerm := rf.getLogTerm (nextIndex - 1)
        leaderCommit := rf.commitIndex
        entries := (rf.logs.drop (nextIndex - rf.lastIncludedIndex)).take (endIndex - nextIndex) })
  else some (rf, .installSnapshot
    { term := rf.currentTerm
      leaderId := rf.me
      lastIncludedIndex := rf.lastIncludedIndex
      lastIncludedTerm := rf.lastIncludedTerm
      data := rf.persister.snapshot })

/-- A reply from a later term makes any server a follower of that term. -/
@[simps! me currentTerm votedFor logs state commitIndex lastApplied nextIndex matchIndex
  lastIncludedIndex lastIncludedTerm]
def stepDown (rf : Raft n C D) (term : ℕ) : Raft n C D :=
  { rf with currentTerm := term, state := .follower, votedFor := none }.persist

def handleAppendEntriesReply (rf : Raft n C D) (server : Fin n) (args : AppendEntriesArgs n C)
    (reply : AppendEntriesReply) : Raft n C D :=
  if reply.term > rf.currentTerm then rf.stepDown reply.term
  else if args.prevLogIndex + 1 ≠ rf.nextIndex server then rf
  else if reply.success then
    { rf with
      nextIndex := Function.update rf.nextIndex server (args.prevLogIndex + args.entries.length + 1)
      matchIndex :=
        Function.update rf.matchIndex server (args.prevLogIndex + args.entries.length) }.commit
  else if reply.conflictLogIndex > 0 then
    if reply.conflictLogIndex < rf.nextIndex server then
      { rf with nextIndex := Function.update rf.nextIndex server reply.conflictLogIndex }
    else rf
  else { rf with nextIndex := Function.update rf.nextIndex server 1 }

def handleInstallSnapshotReply (rf : Raft n C D) (server : Fin n)
    (args : InstallSnapshotArgs n C D) (reply : InstallSnapshotReply) : Raft n C D :=
  if reply.term > rf.currentTerm then rf.stepDown reply.term
  else if args.lastIncludedIndex > rf.matchIndex server then
    { rf with
      matchIndex := Function.update rf.matchIndex server args.lastIncludedIndex
      nextIndex := Function.update rf.nextIndex server (args.lastIncludedIndex + 1) }
  else rf

/-- The locked part of one round of `applier`: the entry it is about to send. The result
is `none` when there is nothing to apply, or when the slot is out of range and Go panics. -/
def applier (rf : Raft n C D) : Option (Raft n C D × ApplyMsg C D) :=
  if rf.commitIndex > rf.lastApplied then
    let applied := rf.lastApplied + 1
    if applied < rf.lastIncludedIndex then none
    else (rf.logs[applied - rf.lastIncludedIndex]?).map fun entry =>
      ({ rf with lastApplied := applied }, .command entry.command applied (rf.getLogTerm applied))
  else none

def make (me : Fin n) (persister : Persister C D) : Raft n C D :=
  let fresh : Raft n C D :=
    { me := me
      persister := persister
      currentTerm := 0
      votedFor := none
      logs := [⟨0, none⟩]
      state := .follower
      commitIndex := 0
      lastApplied := 0
      nextIndex := fun _ => 1
      matchIndex := fun _ => 0
      lastIncludedIndex := 0
      lastIncludedTerm := 0 }
  let restored := fresh.readPersist persister.raftstate
  { restored with
    commitIndex := restored.lastIncludedIndex
    lastApplied := restored.lastIncludedIndex }

end Raft

end DistributedLabs.Raft1
