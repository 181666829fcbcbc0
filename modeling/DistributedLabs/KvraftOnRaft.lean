import DistributedLabs.KvraftLinearizability
import DistributedLabs.RaftOrigins

/-!
# `kvraft1` on `raft1`

Clerks, handlers, `Submit`, the reader of each server and its map, and below them the cluster of
`raft1` with its own network. Nothing is assumed of Raft here: `Start` is answered by the server's
`Raft` object, and a reader gets what that object sends on `applyCh`.

A reader executes a command and takes its snapshot in one step. In between it holds no lock, but
nobody else looks at the map, so the execution might as well happen when the snapshot is taken.
-/

namespace DistributedLabs.Kvraft
open Kv Rsm TransitionRuns

structure Stack (n : ℕ) (K V B : Type) where
  cluster : Raft1.Cluster n (Command K V) B
  /-- what a reader has got from `applyCh` and has not dealt with -/
  inbox : Fin n → Option (Raft1.ApplyMsg (Command K V) B)
  keyValue : Fin n → KeyValue K V
  rsm : Fin n → RSM (Command K V) (Reply V)
  rpcs : List (Rpc n)
  calls : List (ClerkCall n K V)
  lastLeader : ℕ → Option (Fin n)

inductive StackAction (n : ℕ) (K V B : Type)
  /-- a clerk, a handler, or a part of `Submit` and `reader` that Raft has no part in -/
  | front (a : Action n K V)
  /-- the `Raft` objects and the network between them -/
  | raft (a : Raft1.Action n (Command K V) B)
  /-- `Submit` calls `Start` -/
  | start (i : Fin n) (k : ℕ)
  /-- a reader gets a message from `applyCh` -/
  | receive (i : Fin n) (k : ℕ)
  /-- a reader executes a command, as a pointer or as a value, or it restores a snapshot -/
  | handle (i : Fin n) (pointer : Bool) (persistBytes : ℕ)
  /-- a crash and a new start from the persister -/
  | restart (i : Fin n)

namespace Stack
variable {n : ℕ} {K V B : Type}

/-- The clerks and servers of the stack, with another account of what Raft does for them. -/
def world (st : Stack n K V B) (group : Group (Fin n) (KeyValue K V) B)
    (handed committed : List (Entry n K V)) : World n K V B :=
  ⟨group, st.rsm, handed, committed, st.rpcs, st.calls, st.lastLeader⟩

/-- The clerks and servers alone. -/
def front (st : Stack n K V B) : World n K V B :=
  st.world ⟨fun i => ⟨st.keyValue i, 0, ⟨0, none⟩⟩, []⟩ [] []

def setFront (st : Stack n K V B) (w : World n K V B) : Stack n K V B :=
  { st with rsm := w.rsm, rpcs := w.rpcs, calls := w.calls, lastLeader := w.lastLeader }

/-- The actions of the clerks and servers alone. A reader does not notice that `applyCh` is closed
while it deals with a message. -/
def isFront (st : Stack n K V B) : Action n K V → Bool
  | .start _ _ _ | .commit _ | .handover _ => false
  | .event i .shutdown => (st.inbox i).isNone
  | _ => true

/-- The actions of Raft that the service has no part in. -/
def isInner : Raft1.Action n (Command K V) B → Bool
  | .start _ _ | .send _ _ | .snapshot _ _ _ | .restart _ => false
  | _ => true

def start (st : Stack n K V B) (i : Fin n) (k : ℕ) : Option (Stack n K V B) := do
  let submission ← (st.rsm i).calls[k]?
  let answer := ((st.cluster.node i).rf.start (some submission.req)).2
  let rsm ← (st.rsm i).start k (if answer.2.2 then some ((answer.1 - 1).toNat, answer.2.1) else none)
  let cluster ← st.cluster.step (.start i (some submission.req))
  pure { st with cluster, rsm := Function.update st.rsm i rsm }

def receive (st : Stack n K V B) (i : Fin n) (k : ℕ) : Option (Stack n K V B) :=
  match st.inbox i, (st.rsm i).reader with
  | none, .idle => do
    let x ← (st.cluster.node i).sending[k]?
    let cluster ← st.cluster.step (.send i k)
    pure { st with cluster, inbox := Function.update st.inbox i (some x.msg) }
  | _, _ => none

/-- The message has been dealt with. -/
def done (st : Stack n K V B) (i : Fin n) (cluster : Raft1.Cluster n (Command K V) B)
    (kv : KeyValue K V) (rsm : RSM (Command K V) (Reply V)) : Stack n K V B :=
  { st with
    cluster
    inbox := Function.update st.inbox i none
    keyValue := Function.update st.keyValue i kv
    rsm := Function.update st.rsm i rsm }

variable [DecidableEq K] [Inhabited V] (gob : Labgob K V B) (maxraftstate : ℤ)

/-- Raft gets a snapshot if its state has grown too large. -/
def trySnapShot (st : Stack n K V B) (i : Fin n) (index : ℕ) (kv : KeyValue K V) (persistBytes : ℕ) :
    Option (Raft1.Cluster n (Command K V) B) :=
  if maxraftstate = -1 then some st.cluster
  else if maxraftstate < persistBytes then st.cluster.step (.snapshot i index (snapshot gob kv))
  else some st.cluster

def handle (st : Stack n K V B) (i : Fin n) (pointer : Bool) (persistBytes : ℕ) :
    Option (Stack n K V B) :=
  match st.inbox i with
  | none => none
  | some (.command none _ _) => some (st.done i st.cluster (st.keyValue i) (st.rsm i))
  | some (.command (some req) index term) => do
    let r := doOp (st.keyValue i) (.of pointer req)
    let cluster ← st.trySnapShot gob maxraftstate i index r.1 persistBytes
    let rsm ← (st.rsm i).execute ⟨index, term.toNat, req, r.2⟩
    pure (st.done i cluster r.1 rsm)
  | some (.snapshot data _ _) =>
    match (st.rsm i).reader with
    | .idle => some (st.done i st.cluster (restore gob (st.keyValue i) data.bytes) (st.rsm i))
    | _ => none

def restart (st : Stack n K V B) (i : Fin n) : Option (Stack n K V B) :=
  let rf := (st.cluster.node i).rf
  (st.cluster.step (.restart i)).map fun cluster =>
    st.done i cluster (makeRSM (kvServer gob) ⟨rf.lastIncludedIndex, rf.persister.snapshot.bytes⟩)
      (st.rsm i).crash

def init : Stack n K V B where
  cluster := .init n (Command K V) B
  inbox _ := none
  keyValue _ := emptyStore K V
  rsm _ := .make _ _
  rpcs := []
  calls := []
  lastLeader _ := none

def step [NeZero n] (st : Stack n K V B) : StackAction n K V B → Option (Stack n K V B)
  | .front a =>
    if st.isFront a then (st.front.step gob maxraftstate a).map st.setFront else none
  | .raft a =>
    if isInner a then (st.cluster.step a).map fun cluster => { st with cluster } else none
  | .start i k => st.start i k
  | .receive i k => st.receive i k
  | .handle i pointer persistBytes => st.handle gob maxraftstate i pointer persistBytes
  | .restart i => st.restart gob i

omit [DecidableEq K] [Inhabited V] in
/-- The observer sees what the clerks do. -/
def observe (st : Stack n K V B) (action : StackAction n K V B) (seen : Seen) : Seen :=
  match action with
  | .front a => st.front.observe a seen
  | _ => { seen with now := seen.now + 1 }

/-- Deliveries between the `Raft` objects are sound and in order, and so is what a reader gets. -/
def Delivered (st : Stack n K V B) : StackAction n K V B → Prop
  | .raft a => Raft1.SoundDelivery st.cluster a ∧ Raft1.InOrder st.cluster a
  | .receive _ k => k = 0
  | _ => True

omit [DecidableEq K] [Inhabited V] in
instance (st : Stack n K V B) (action : StackAction n K V B) : Decidable (st.Delivered action) :=
  match action with
  | .raft _ => inferInstanceAs (Decidable (_ ∧ _))
  | .receive _ _ => inferInstanceAs (Decidable (_ = 0))
  | .front _ | .start _ _ | .handle _ _ _ | .restart _ => .isTrue trivial

/-- A `Put` names no version that its key has not reached on any server. -/
def Reached (st : Stack n K V B) : StackAction n K V B → Prop
  | .front (.invoke _ (.put args)) => ∃ i, args.version ≤ versionOf (st.keyValue i) args.key
  | _ => True

instance (st : Stack n K V B) (action : StackAction n K V B) : Decidable (st.Reached action) :=
  match action with
  | .front (.invoke _ (.put _)) => inferInstanceAs (Decidable (∃ _, _))
  | .front (.invoke _ (.get _)) | .front (.send _) | .front (.giveUp _) | .front (.arrive _)
  | .front (.reply _) | .front (.start _ _ _) | .front (.event _ _) | .front (.commit _)
  | .front (.handover _) | .raft _ | .start _ _ | .receive _ _ | .handle _ _ _ | .restart _ =>
    .isTrue trivial

/-- The runs with what is observed, in which clerks name versions that were reached. -/
def Runs [NeZero n] (st : Stack n K V B) (seen : Seen) : Prop :=
  Reaches (recording (Stack.step gob maxraftstate) Stack.observe)
    (fun s a => s.1.Delivered a ∧ s.1.Reached a) (init, .start) (st, seen)

section Inversion
variable {gob maxraftstate} {st st' : Stack n K V B} {i : Fin n}

theorem step_front [NeZero n] {a : Action n K V} {f : World n K V B} (ha : st.isFront a)
    (hs : st.front.step gob maxraftstate a = some f) (group : Group (Fin n) (KeyValue K V) B)
    (handed committed : List (Entry n K V)) :
    (st.world group handed committed).step gob maxraftstate a =
      some ((st.setFront f).world group handed committed) := by
  cases a with
  | invoke clerk command =>
    cases hs
    rfl
  | send c =>
    obtain ⟨call, i, isResend, hcall, hphase, rfl⟩ := World.send_cases hs
    have hcall : (st.world group handed committed).calls[c]? = some call := hcall
    simp only [World.step, World.send, hcall, Option.bind_eq_bind, Option.bind_some, hphase]
    rfl
  | giveUp c =>
    obtain ⟨call, i, isResend, j, hcall, hphase, rfl⟩ := World.giveUp_cases hs
    have hcall : (st.world group handed committed).calls[c]? = some call := hcall
    simp only [World.step, World.giveUp, hcall, Option.bind_eq_bind, Option.bind_some, hphase]
    rfl
  | arrive j =>
    obtain ⟨rpc, call, hrpc, hcall, hnone, rfl⟩ := World.arrive_cases hs
    have hrpc : (st.world group handed committed).rpcs[j]? = some rpc := hrpc
    have hcall : (st.world group handed committed).calls[rpc.call]? = some call := hcall
    simp only [World.step, World.arrive, hrpc, hcall, Option.bind_eq_bind, Option.bind_some, hnone]
    rfl
  | reply j =>
    obtain ⟨rpc, k, submission, call, err, value, i, isResend, hrpc, hk, hsubmission, hcall, hreturned,
      hwaiting, rfl⟩ := World.reply_cases hs
    have hrpc : (st.world group handed committed).rpcs[j]? = some rpc := hrpc
    have hcall : (st.world group handed committed).calls[rpc.call]? = some call := hcall
    have hsubmission : ((st.world group handed committed).rsm rpc.server).calls[k]? = some submission :=
      hsubmission
    simp only [World.step, World.reply, hrpc, hk, hsubmission, hcall, Option.bind_eq_bind,
      Option.bind_some, hreturned, hwaiting, if_true, World.finish]
    split_ifs <;> rfl
  | start i k answer => cases ha
  | event i e =>
    obtain ⟨rsm, hrsm, rfl⟩ := Option.map_eq_some_iff.mp hs
    exact Option.map_eq_some_iff.mpr ⟨rsm, hrsm, rfl⟩
  | commit m => cases ha
  | handover a => cases ha

omit [DecidableEq K] [Inhabited V] in
theorem start_cases {k : ℕ} (hs : st.start i k = some st') :
    ∃ submission rsm cluster, (st.rsm i).calls[k]? = some submission ∧
      (st.rsm i).start k (if (st.cluster.node i).rf.state = .leader then
        some ((st.cluster.node i).rf.getLastLogIndex, (st.cluster.node i).rf.currentTerm) else none) =
          some rsm ∧
      st.cluster.step (.start i (some submission.req)) = some cluster ∧
      st' = { st with cluster, rsm := Function.update st.rsm i rsm } := by
  simp only [start, Option.bind_eq_bind, Option.bind_eq_some_iff] at hs
  obtain ⟨submission, hsubmission, rsm, hrsm, cluster, hcluster, hs⟩ := hs
  cases hs
  refine ⟨submission, rsm, cluster, hsubmission, ?_, hcluster, rfl⟩
  by_cases hlead : (st.cluster.node i).rf.state = .leader
  · simpa [Raft1.Raft.start, hlead] using hrsm
  · simpa [Raft1.Raft.start, hlead] using hrsm

omit [DecidableEq K] [Inhabited V] in
theorem receive_cases {k : ℕ} (hs : st.receive i k = some st') :
    ∃ x cluster, st.inbox i = none ∧ (st.cluster.node i).sending[k]? = some x ∧
      st.cluster.step (.send i k) = some cluster ∧
      st' = { st with cluster, inbox := Function.update st.inbox i (some x.msg) } := by
  unfold receive at hs
  split at hs
  case h_2 => cases hs
  case h_1 hempty _ =>
    simp only [Option.bind_eq_bind, Option.bind_eq_some_iff] at hs
    obtain ⟨x, hx, cluster, hcluster, hs⟩ := hs
    cases hs
    exact ⟨x, cluster, hempty, hx, hcluster, rfl⟩

theorem trySnapShot_cases {index : ℕ} {kv : KeyValue K V} {persistBytes : ℕ}
    {cluster : Raft1.Cluster n (Command K V) B}
    (hs : st.trySnapShot gob maxraftstate i index kv persistBytes = some cluster) (p : Rsm.Persister B) :
    cluster = st.cluster ∧
      Rsm.trySnapShot (kvServer gob) maxraftstate persistBytes index kv p = none ∨
    st.cluster.step (.snapshot i index (snapshot gob kv)) = some cluster ∧
      Rsm.trySnapShot (kvServer gob) maxraftstate persistBytes index kv p =
        p.snapshotAt index (snapshot gob kv) := by
  unfold trySnapShot at hs
  unfold Rsm.trySnapShot
  split_ifs at hs ⊢
  · cases hs
    exact .inl ⟨rfl, rfl⟩
  · exact .inr ⟨hs, rfl⟩
  · cases hs
    exact .inl ⟨rfl, rfl⟩

theorem handle_cases {pointer : Bool} {persistBytes : ℕ}
    (hs : st.handle gob maxraftstate i pointer persistBytes = some st') :
    (∃ index term, st.inbox i = some (.command none index term) ∧
      st' = st.done i st.cluster (st.keyValue i) (st.rsm i)) ∨
    (∃ req index term cluster rsm, st.inbox i = some (.command (some req) index term) ∧
      st.trySnapShot gob maxraftstate i index (doOp (st.keyValue i) (.of pointer req)).1 persistBytes =
        some cluster ∧
      (st.rsm i).execute ⟨index, term.toNat, req, (doOp (st.keyValue i) (.of pointer req)).2⟩ = some rsm ∧
      st' = st.done i cluster (doOp (st.keyValue i) (.of pointer req)).1 rsm) ∨
    ∃ data term index, st.inbox i = some (.snapshot data term index) ∧ (st.rsm i).reader = .idle ∧
      st' = st.done i st.cluster (restore gob (st.keyValue i) data.bytes) (st.rsm i) := by
  unfold handle at hs
  split at hs
  case h_1 => cases hs
  case h_2 index term hinbox =>
    cases hs
    exact .inl ⟨index, term, hinbox, rfl⟩
  case h_3 req index term hinbox =>
    simp only [Option.bind_eq_bind, Option.bind_eq_some_iff] at hs
    obtain ⟨cluster, hcluster, rsm, hrsm, hs⟩ := hs
    cases hs
    exact .inr (.inl ⟨req, index, term, cluster, rsm, hinbox, hcluster, hrsm, rfl⟩)
  case h_4 data term index hinbox =>
    split at hs
    case h_2 => cases hs
    case h_1 hidle =>
      cases hs
      exact .inr (.inr ⟨data, term, index, hinbox, hidle, rfl⟩)

theorem restart_cases (hs : st.restart gob i = some st') :
    ∃ cluster, st.cluster.step (.restart i) = some cluster ∧
      st' = st.done i cluster (makeRSM (kvServer gob) ⟨(st.cluster.node i).rf.lastIncludedIndex,
        (st.cluster.node i).rf.persister.snapshot.bytes⟩) (st.rsm i).crash := by
  simp only [restart, Option.map_eq_some_iff] at hs
  obtain ⟨cluster, hcluster, rfl⟩ := hs
  exact ⟨cluster, hcluster, rfl⟩

end Inversion

end Stack

end DistributedLabs.Kvraft
