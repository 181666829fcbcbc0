import DistributedLabs.Rsm
import DistributedLabs.VersionedStore

/-!
# A replica of `kvraft1`

The server of `kvraft1` as a state machine for `rsm`. `DoOp` has a branch for each
request in each of its two forms. A snapshot is the map `KeyValue`, encoded by
labgob.
-/

namespace DistributedLabs.Kvraft
open Kv Rsm TransitionRuns

inductive Command (K V : Type)
  | get (args : GetArgs K)
  | put (args : PutArgs K V)
  deriving DecidableEq

inductive Reply (V : Type)
  | get (reply : GetReply V)
  | put (reply : PutReply)
  deriving DecidableEq

/-- The part of labgob that carries the map of a server. -/
structure Labgob (K V B : Type) where
  encode : KeyValue K V → B
  decode : B → Option (KeyValue K V)

/-- A map that was encoded can be decoded. -/
def Labgob.RoundTrips {K V B : Type} (gob : Labgob K V B) : Prop :=
  ∀ kv, FiniteKeys kv → gob.decode (gob.encode kv) = some kv

/-- A codec that leaves the map as it is. -/
def plainGob (K V : Type) : Labgob K V (KeyValue K V) := ⟨id, some⟩

section Server
variable {K V B : Type} [DecidableEq K] [Inhabited V] (gob : Labgob K V B)

def doOp (kv : KeyValue K V) : Any (Command K V) → KeyValue K V × Reply V
  | .pointer (.get getreq) => (kv, .get (doGet kv getreq))
  | .pointer (.put putreq) => ((doPut kv putreq).1, .put (doPut kv putreq).2)
  | .value (.get getreq) => (kv, .get (doGet kv getreq))
  | .value (.put putreq) => ((doPut kv putreq).1, .put (doPut kv putreq).2)

/-- The bytes of an encoded map are never empty. -/
def snapshot (kv : KeyValue K V) : Option B := some (gob.encode kv)

def restore (kv : KeyValue K V) : Option B → KeyValue K V
  | none => kv
  | some data =>
    match gob.decode data with
    | none => kv
    | some kvBuffer => kvBuffer

/-- `StartKVServer` makes an empty map, unless a snapshot has been restored. -/
def kvServer : StateMachine (KeyValue K V) (Command K V) (Reply V) B where
  start := emptyStore K V
  doOp := doOp
  snapshot := snapshot gob
  restore := restore gob

variable {gob}

theorem kvServer_uniform : (kvServer gob).Uniform := by
  intro kv command
  cases command with
  | get args => rfl
  | put args => rfl

theorem doOp_of_snd (kv : KeyValue K V) (pointer : Bool) (c : Command K V) :
    (doOp kv (.of pointer c)).2 = (doOp kv (.value c)).2 := by
  cases pointer <;> cases c <;> rfl

theorem finiteKeys_run (ops : List (Command K V)) : FiniteKeys ((kvServer gob).run ops) := by
  induction ops using List.reverseRecOn with
  | nil => exact finiteKeys_emptyStore
  | append_singleton ops c ih =>
    rw [run_append]
    cases c with
    | get args => exact ih
    | put args => exact ih.doPut args

theorem kvServer_recovers (h : gob.RoundTrips) : (kvServer gob).Recovers := by
  intro kv ops
  refine ⟨gob.encode ((kvServer gob).run ops), rfl, ?_⟩
  change restore gob kv (some (gob.encode ((kvServer gob).run ops))) = _
  rw [restore, h _ (finiteKeys_run ops)]

/-- Whatever is handed over in whatever form, and wherever the replica takes snapshots, gets one
from a leader or restarts, its map is the result of the operations up to the index it has
reached. -/
theorem replica_eq_fold {ι : Type} [DecidableEq ι] (h : gob.RoundTrips) (ops : List (Command K V))
    (maxraftstate : ℤ) (g : Group ι (KeyValue K V) B)
    (hg : Reaches (Group.step (kvServer gob) ops maxraftstate) anyStep (Group.init (kvServer gob)) g)
    (i : ι) : (g.replicas i).index ≤ ops.length ∧
      (g.replicas i).state =
        (ops.take (g.replicas i).index).foldl (fun kv c => (doOp kv (.value c)).1)
          (emptyStore K V) := by
  have hcurrent := current_of_reaches kvServer_uniform (kvServer_recovers h) hg i
  exact ⟨hcurrent.index, hcurrent.state⟩

/-- The leader executes a `Put` it got as a pointer and takes a snapshot, another replica gets that
snapshot and the second `Put`, the leader restarts. -/
theorem replica_eq_fold_restart : ∃ g : Group Bool (KeyValue ℕ ℕ) (KeyValue ℕ ℕ),
    Reaches (Group.step (kvServer (plainGob ℕ ℕ)) [.put ⟨7, 1, 0⟩, .put ⟨7, 2, 1⟩] 0) anyStep
        (Group.init (kvServer (plainGob ℕ ℕ))) g ∧
      (g.replicas true).index = 1 ∧ (g.replicas false).index = 2 ∧
      (g.replicas false).state = [Command.put ⟨7, 1, 0⟩, .put ⟨7, 2, 1⟩].foldl
        (fun kv c => (doOp kv (.value c)).1) (emptyStore ℕ ℕ) := by
  obtain ⟨g, hreach, htrue, hfalse⟩ :=
    exists_reaches (Group.step (kvServer (plainGob ℕ ℕ)) [.put ⟨7, 1, 0⟩, .put ⟨7, 2, 1⟩] 0) anyStep
      (Group.init (kvServer (plainGob ℕ ℕ)))
      [.command true true 1, .snapshot false 0, .command false false 0, .save false 0,
        .restart true]
      (fun g => (g.replicas true).index = 1 ∧ (g.replicas false).index = 2)
      (by decide +kernel)
  refine ⟨g, hreach, htrue, hfalse, ?_⟩
  have hstate := (replica_eq_fold (fun _ _ => rfl) _ 0 g hreach false).2
  rw [hfalse] at hstate
  exact hstate

end Server

end DistributedLabs.Kvraft
