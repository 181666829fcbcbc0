import DistributedLabs.ShardGroup

/-!
# A replica of a shard group

The server of `shardgrp` as a state machine for `rsm`. Its `Snapshot` returns nil and
its `Restore` does nothing, so a replica can be rebuilt from the operations only: what
was before a snapshot is lost with a restart, and a replica that gets a leader's
snapshot skips the operations it stands for.
-/

namespace DistributedLabs.ShardKv
open Kv Rsm TransitionRuns

section Replica
variable {B D : Type} (json : Json B)

def shardServer (D : Type) : StateMachine KVServer (Command B) (Reply B) D where
  start := KVServer.start
  doOp kv req := kv.doOp json req
  snapshot _ := none
  restore kv _ := kv

variable {json}

theorem shardServer_uniform : (shardServer json D).Uniform := by
  intro kv command
  cases command <;> rfl

theorem shardServer_forgets : (shardServer json D).Forgets := fun _ _ => rfl

variable {ι : Type} [DecidableEq ι]

/-- As long as nothing has been compacted away, a replica equals the result of the operations up
to the index it has reached. -/
theorem replica_of_uncompacted (ops : List (Command B)) (maxraftstate : ℤ) (g : Group ι KVServer D)
    (h : Reaches (Group.step (shardServer json D) ops maxraftstate) Uncompacted
      (Group.init (shardServer json D)) g) (i : ι) :
    (g.replicas i).index ≤ ops.length ∧
      (g.replicas i).state = (ops.take (g.replicas i).index).foldl
        (fun kv c => (kv.doOp json (.value c)).1) KVServer.start := by
  have hcurrent := current_of_uncompacted shardServer_uniform shardServer_forgets h i
  exact ⟨hcurrent.index, hcurrent.state⟩

end Replica

/-- A `Put` of the key `m`. -/
def putM : Command Entries := .put ⟨[109], [120], 0⟩

/-- A replica executes a `Put`, restarts, executes it again and takes a snapshot; another one at
the same index gets that snapshot. -/
theorem replica_of_uncompacted_restart : ∃ g : Group Bool KVServer Unit,
    Reaches (Group.step (shardServer plainJson Unit) [putM, .freezeShard ⟨0, 2⟩] 0) Uncompacted
        (Group.init (shardServer plainJson Unit)) g ∧
      (g.replicas true).index = 1 ∧ (g.replicas false).index = 2 ∧
      (g.replicas false).state = [putM, .freezeShard ⟨0, 2⟩].foldl
        (fun kv c => (kv.doOp plainJson (.value c)).1) KVServer.start := by
  obtain ⟨g, hreach, htrue, hfalse⟩ :=
    exists_reaches (Group.step (shardServer plainJson Unit) [putM, .freezeShard ⟨0, 2⟩] 0)
      Uncompacted (Group.init (shardServer plainJson Unit))
      [.command true true 0, .restart true, .command true false 1, .command false false 0,
        .snapshot false 0, .command false false 1]
      (fun g => (g.replicas true).index = 1 ∧ (g.replicas false).index = 2)
      (by decide +kernel)
  refine ⟨g, hreach, htrue, hfalse, ?_⟩
  have hstate := (replica_of_uncompacted _ 0 g hreach false).2
  rw [hfalse] at hstate
  exact hstate

/-- A replica that executed a `Put` and took a snapshot restarts with an empty map, and a second
replica that gets the snapshot has an empty map too, both at index 1. -/
theorem replica_loses_state : ∃ g : Group Bool KVServer Unit,
    Reaches (Group.step (shardServer plainJson Unit) [putM] 0) anyStep
        (Group.init (shardServer plainJson Unit)) g ∧
      ∀ i, (g.replicas i).index = 1 ∧
        (g.replicas i).state ≠ [putM].foldl (fun kv c => (kv.doOp plainJson (.value c)).1)
          KVServer.start := by
  obtain ⟨g, hreach, hlost⟩ :=
    exists_reaches (Group.step (shardServer plainJson Unit) [putM] 0) anyStep
      (Group.init (shardServer plainJson Unit))
      [.command true true 1, .snapshot false 0, .restart true]
      (fun g => ∀ i, (g.replicas i).index = 1 ∧ (g.replicas i).state.keyValue [109] = none)
      (by decide +kernel)
  refine ⟨g, hreach, fun i => ⟨(hlost i).1, fun heq => ?_⟩⟩
  have hnone := (hlost i).2
  rw [heq] at hnone
  revert hnone
  decide +kernel

section Unlimited
variable {B D : Type} {json : Json B} {ι : Type} [DecidableEq ι]

theorem replica_of_unlimited (ops : List (Command B)) {g : Group ι KVServer D}
    (h : Reaches (Group.step (shardServer json D) ops (-1)) anyStep
      (Group.init (shardServer json D)) g) (i : ι) :
    Current (shardServer json D) ops (g.replicas i) :=
  current_of_uncompacted shardServer_uniform shardServer_forgets (uncompacted_of_reaches h).2 i

end Unlimited

end DistributedLabs.ShardKv
