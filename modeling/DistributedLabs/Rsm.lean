import DistributedLabs.TransitionRuns
import Mathlib.Logic.Function.Basic
import Mathlib.Data.Int.Notation
import Mathlib.Data.List.Basic
import Mathlib.Tactic.SplitIfs

/-!
# Replicated state machines

The `rsm` package for any state machine. Raft hands every replica the same committed
operations, one by one, or a snapshot that some replica took of a prefix of them. A
replica executes what it is handed and takes a snapshot when Raft's state has grown
too large. A replica that restarts begins with the snapshot its persister holds.

A replica agrees with the operations up to the index it has reached if the state
machine treats a request alike whether it comes as a pointer or as a value, and if it
can be restored from its own snapshots.
-/

namespace DistributedLabs.Rsm
open TransitionRuns

/-- A request comes as a pointer on the leader that submitted it, as a value elsewhere. -/
inductive Any (C : Type)
  | pointer (command : C)
  | value (command : C)

def Any.of {C : Type} (pointer : Bool) (command : C) : Any C :=
  if pointer then .pointer command else .value command

/-- The request itself, in whichever form it comes. -/
def Any.command {C : Type} : Any C → C
  | .pointer command => command
  | .value command => command

/-- The interface `StateMachine`, with the state of a server that has just been started. A byte
slice is `none` if it is nil or empty. -/
structure StateMachine (S C R B : Type) where
  start : S
  doOp : S → Any C → S × R
  snapshot : S → Option B
  restore : S → Option B → S

/-- The part of what Raft saves that a restart of the service depends on. -/
structure Persister (B : Type) where
  lastIncludedIndex : ℕ
  snapshot : Option B

structure Replica (S B : Type) where
  state : S
  /-- history: the last index handed over -/
  index : ℕ
  persister : Persister B

section Service
variable {S C R B : Type} (sm : StateMachine S C R B)

/-- `Raft.Snapshot` skips a snapshot that is not newer than the one it has. -/
def Persister.snapshotAt (p : Persister B) (index : ℕ) (data : Option B) : Option (Persister B) :=
  if index ≤ p.lastIncludedIndex then none else some ⟨index, data⟩

/-- The snapshot that Raft is given and keeps. -/
def trySnapShot (maxraftstate : ℤ) (persistBytes : ℕ) (index : ℕ) (state : S) (p : Persister B) :
    Option (Persister B) :=
  if maxraftstate = -1 then none
  else if maxraftstate < persistBytes then p.snapshotAt index (sm.snapshot state)
  else none

/-- `MakeRSM` restores the snapshot before Raft starts. -/
def makeRSM (p : Persister B) : S :=
  match p.snapshot with
  | none => sm.start
  | some data => sm.restore sm.start (some data)

/-- The state after a list of operations. -/
def StateMachine.run (ops : List C) : S := ops.foldl (fun s c => (sm.doOp s (.value c)).1) sm.start

end Service

structure Group (ι S B : Type) where
  replicas : ι → Replica S B
  /-- history: the snapshots that were taken; a leader may send any of them -/
  snapshots : List (Persister B)

inductive Handover (ι : Type)
  /-- the next operation -/
  | command (i : ι) (pointer : Bool) (persistBytes : ℕ)
  /-- Raft saves a leader's snapshot, the service has not got it yet -/
  | save (i : ι) (k : ℕ)
  /-- the service gets a leader's snapshot -/
  | snapshot (i : ι) (k : ℕ)
  /-- a crash, and a new start from the persister -/
  | restart (i : ι)

section Group
variable {ι S C R B : Type} [DecidableEq ι] (sm : StateMachine S C R B) (ops : List C)
  (maxraftstate : ℤ)

def Group.init : Group ι S B := ⟨fun _ => ⟨sm.start, 0, ⟨0, none⟩⟩, []⟩

def Group.setReplica (g : Group ι S B) (i : ι) (r : Replica S B) : Group ι S B :=
  { g with replicas := Function.update g.replicas i r }

/-- The command branch of `reader`. -/
def Replica.execute (r : Replica S B) (req : Any C) (persistBytes : ℕ) :
    Replica S B × Option (Persister B) :=
  let state := (sm.doOp r.state req).1
  let taken := trySnapShot sm maxraftstate persistBytes (r.index + 1) state r.persister
  (⟨state, r.index + 1, taken.getD r.persister⟩, taken)

def Group.step (g : Group ι S B) : Handover ι → Option (Group ι S B)
  | .command i pointer persistBytes =>
    (ops[(g.replicas i).index]?).map fun c =>
      let r := (g.replicas i).execute sm maxraftstate (.of pointer c) persistBytes
      { g.setReplica i r.1 with snapshots := g.snapshots ++ r.2.toList }
  | .save i k => (g.snapshots[k]?).map fun p => g.setReplica i { g.replicas i with persister := p }
  | .snapshot i k =>
    (g.snapshots[k]?).map fun p =>
      g.setReplica i
        { g.replicas i with
          state := sm.restore (g.replicas i).state p.snapshot
          index := p.lastIncludedIndex }
  | .restart i =>
    let p := (g.replicas i).persister
    some (g.setReplica i ⟨makeRSM sm p, p.lastIncludedIndex, p⟩)

end Group

section Agreement
variable {ι S C R B : Type} {sm : StateMachine S C R B} {ops : List C} {maxraftstate : ℤ}

theorem run_append (ops : List C) (c : C) :
    sm.run (ops ++ [c]) = (sm.doOp (sm.run ops) (.value c)).1 := by
  simp [StateMachine.run]

theorem run_take_succ {n : ℕ} {c : C} (h : ops[n]? = some c) :
    sm.run (ops.take (n + 1)) = (sm.doOp (sm.run (ops.take n)) (.value c)).1 := by
  rw [List.take_add_one, h, Option.toList_some, run_append]

/-- A request has the same effect in both forms. -/
def StateMachine.Uniform (sm : StateMachine S C R B) : Prop :=
  ∀ s c, (sm.doOp s (.pointer c)).1 = (sm.doOp s (.value c)).1

theorem StateMachine.Uniform.of (h : sm.Uniform) (s : S) (pointer : Bool) (c : C) :
    (sm.doOp s (.of pointer c)).1 = (sm.doOp s (.value c)).1 := by
  cases pointer with
  | true => exact h s c
  | false => rfl

/-- A snapshot of a state that operations lead to is not empty and brings that state back, whatever
the state was. -/
def StateMachine.Recovers (sm : StateMachine S C R B) : Prop :=
  ∀ s ops, ∃ data, sm.snapshot (sm.run ops) = some data ∧ sm.restore s (some data) = sm.run ops

/-- The replica is where the operations up to its index lead. -/
structure Current (sm : StateMachine S C R B) (ops : List C) (r : Replica S B) : Prop where
  index : r.index ≤ ops.length
  state : r.state = sm.run (ops.take r.index)

theorem Current.execute {r : Replica S B} (hr : Current sm ops r) (h : sm.Uniform) {c : C}
    (hc : ops[r.index]? = some c) (maxraftstate : ℤ) (pointer : Bool) (persistBytes : ℕ) :
    Current sm ops (r.execute sm maxraftstate (.of pointer c) persistBytes).1 := by
  obtain ⟨hlt, -⟩ := List.getElem?_eq_some_iff.mp hc
  refine ⟨hlt, ?_⟩
  change (sm.doOp r.state (.of pointer c)).1 = sm.run (ops.take (r.index + 1))
  rw [h.of, run_take_succ hc, hr.state]

/-- The snapshot of a prefix of the operations. -/
structure Persister.TakenFrom (sm : StateMachine S C R B) (ops : List C) (p : Persister B) :
    Prop where
  index : p.lastIncludedIndex ≤ ops.length
  snapshot : p.snapshot = sm.snapshot (sm.run (ops.take p.lastIncludedIndex))

theorem takenFrom_of_trySnapShot {r : Replica S B} (hr : Current sm ops r) {persistBytes : ℕ}
    {p q : Persister B} (h : trySnapShot sm maxraftstate persistBytes r.index r.state p = some q) :
    q.TakenFrom sm ops := by
  unfold trySnapShot Persister.snapshotAt at h
  split_ifs at h
  cases h
  exact ⟨hr.index, congrArg sm.snapshot hr.state⟩

theorem persister_execute {P : Persister B → Prop} {r : Replica S B} (hr : P r.persister)
    {req : Any C} {persistBytes : ℕ}
    (h : ∀ p ∈ (r.execute sm maxraftstate req persistBytes).2, P p) :
    P (r.execute sm maxraftstate req persistBytes).1.persister := by
  change P ((r.execute sm maxraftstate req persistBytes).2.getD r.persister)
  cases htaken : (r.execute sm maxraftstate req persistBytes).2 with
  | none => exact hr
  | some p => exact h p htaken

theorem Persister.TakenFrom.restore (h : sm.Recovers) {p : Persister B} (hp : p.TakenFrom sm ops)
    (s : S) : sm.restore s p.snapshot = sm.run (ops.take p.lastIncludedIndex) := by
  obtain ⟨data, hdata, hrestore⟩ := h s (ops.take p.lastIncludedIndex)
  rw [hp.snapshot, hdata, hrestore]

theorem Persister.TakenFrom.makeRSM (h : sm.Recovers) {p : Persister B} (hp : p.TakenFrom sm ops) :
    makeRSM sm p = sm.run (ops.take p.lastIncludedIndex) := by
  obtain ⟨data, hdata, hrestore⟩ := h sm.start (ops.take p.lastIncludedIndex)
  rw [Rsm.makeRSM, hp.snapshot, hdata]
  exact hrestore

/-- Every replica is current, and whatever it may restart from is a snapshot of a prefix. -/
structure Sound (sm : StateMachine S C R B) (ops : List C) (g : Group ι S B) : Prop where
  current : ∀ i, Current sm ops (g.replicas i)
  persister : ∀ i, (g.replicas i).persister = ⟨0, none⟩ ∨ (g.replicas i).persister.TakenFrom sm ops
  snapshots : ∀ p ∈ g.snapshots, p.TakenFrom sm ops

theorem Sound.append {g : Group ι S B} (h : Sound sm ops g) (more : List C) :
    Sound sm (ops ++ more) g := by
  have hlength : ops.length ≤ (ops ++ more).length := by simp
  have htaken : ∀ p : Persister B, p.TakenFrom sm ops → p.TakenFrom sm (ops ++ more) := by
    intro p hp
    refine ⟨Nat.le_trans hp.index hlength, ?_⟩
    rw [List.take_append_of_le_length hp.index]
    exact hp.snapshot
  refine ⟨fun i => ⟨Nat.le_trans (h.current i).index hlength, ?_⟩, fun i => ?_,
    fun p hp => htaken p (h.snapshots p hp)⟩
  · rw [List.take_append_of_le_length (h.current i).index]
    exact (h.current i).state
  · exact (h.persister i).imp_right (htaken _)

theorem current_init (i : ι) : Current sm ops ((Group.init sm : Group ι S B).replicas i) :=
  ⟨Nat.zero_le _, rfl⟩

theorem sound_init : Sound sm ops (Group.init sm : Group ι S B) :=
  ⟨current_init, fun _ => Or.inl rfl, nofun⟩

variable [DecidableEq ι]

theorem forall_setReplica {P : Replica S B → Prop} {g : Group ι S B} {i : ι} {r : Replica S B}
    (h : ∀ j, P (g.replicas j)) (hr : P r) (j : ι) : P ((g.setReplica i r).replicas j) := by
  rcases eq_or_ne j i with rfl | hj
  · simpa [Group.setReplica] using hr
  · simpa [Group.setReplica, Function.update_of_ne hj] using h j

theorem Sound.setReplica {g : Group ι S B} (h : Sound sm ops g) {i : ι} {r : Replica S B}
    (hr : Current sm ops r)
    (hp : r.persister = ⟨0, none⟩ ∨ r.persister.TakenFrom sm ops) :
    Sound sm ops (g.setReplica i r) :=
  ⟨forall_setReplica h.current hr,
    forall_setReplica (P := fun r => r.persister = ⟨0, none⟩ ∨ r.persister.TakenFrom sm ops)
      h.persister hp, h.snapshots⟩

theorem Sound.step (hu : sm.Uniform) (hrec : sm.Recovers) {g g' : Group ι S B} {a : Handover ι}
    (h : Sound sm ops g) (hs : g.step sm ops maxraftstate a = some g') : Sound sm ops g' := by
  cases a with
  | command i pointer persistBytes =>
    obtain ⟨c, hc, rfl⟩ := Option.map_eq_some_iff.mp hs
    have hcurrent := (h.current i).execute hu hc maxraftstate pointer persistBytes
    have htaken : ∀ p ∈ ((g.replicas i).execute sm maxraftstate (.of pointer c) persistBytes).2,
        p.TakenFrom sm ops := fun p hp => takenFrom_of_trySnapShot hcurrent hp
    have hpersister := persister_execute (P := fun p => p = ⟨0, none⟩ ∨ p.TakenFrom sm ops)
      (h.persister i) fun p hp => Or.inr (htaken p hp)
    have hset := h.setReplica (i := i) hcurrent hpersister
    refine ⟨hset.current, hset.persister, fun p hp => ?_⟩
    rcases List.mem_append.mp hp with hp | hp
    · exact h.snapshots p hp
    · exact htaken p (Option.mem_toList.mp hp)
  | save i k =>
    obtain ⟨p, hp, rfl⟩ := Option.map_eq_some_iff.mp hs
    have htaken := h.snapshots p (List.mem_of_getElem? hp)
    exact h.setReplica ⟨(h.current i).index, (h.current i).state⟩ (Or.inr htaken)
  | snapshot i k =>
    obtain ⟨p, hp, rfl⟩ := Option.map_eq_some_iff.mp hs
    have htaken := h.snapshots p (List.mem_of_getElem? hp)
    exact h.setReplica ⟨htaken.index, htaken.restore hrec _⟩ (h.persister i)
  | restart i =>
    cases hs
    apply h.setReplica
    case hp => exact h.persister i
    rcases h.persister i with hnone | htaken
    · rw [hnone]
      exact ⟨Nat.zero_le _, rfl⟩
    · exact ⟨htaken.index, htaken.makeRSM hrec⟩

theorem current_of_reaches (hu : sm.Uniform) (hrec : sm.Recovers) {g : Group ι S B}
    (h : Reaches (Group.step sm ops maxraftstate) anyStep (Group.init sm) g) (i : ι) :
    Current sm ops (g.replicas i) := by
  have hkept : ∀ (g : Group ι S B) a g', Sound sm ops g → anyStep g a →
      g.step sm ops maxraftstate a = some g' → Sound sm ops g' :=
    fun g a g' hg _ hs => hg.step hu hrec hs
  exact (h.invariant sound_init hkept).current i

/-- A leader's snapshot reaches a replica only at the index where it is, and a replica restarts
only while its log goes back to the first operation. -/
def Uncompacted (g : Group ι S B) : Handover ι → Prop
  | .snapshot i k => ∀ p ∈ g.snapshots[k]?, p.lastIncludedIndex = (g.replicas i).index
  | .restart i => (g.replicas i).persister.lastIncludedIndex = 0
  | .command _ _ _ | .save _ _ => True

instance (g : Group ι S B) (a : Handover ι) : Decidable (Uncompacted g a) :=
  match a with
  | .snapshot _ k => inferInstanceAs (Decidable (∀ p ∈ g.snapshots[k]?, _))
  | .restart _ => inferInstanceAs (Decidable (_ = 0))
  | .command _ _ _ | .save _ _ => .isTrue trivial

/-- `Restore` does nothing. -/
def StateMachine.Forgets (sm : StateMachine S C R B) : Prop := ∀ s data, sm.restore s data = s

theorem StateMachine.Forgets.makeRSM (h : sm.Forgets) (p : Persister B) :
    makeRSM sm p = sm.start := by
  unfold Rsm.makeRSM
  cases p.snapshot with
  | none => rfl
  | some data => exact h _ _

theorem current_step_of_uncompacted (hu : sm.Uniform) (hf : sm.Forgets) {g g' : Group ι S B}
    {a : Handover ι} (h : ∀ i, Current sm ops (g.replicas i)) (hg : Uncompacted g a)
    (hs : g.step sm ops maxraftstate a = some g') (i : ι) : Current sm ops (g'.replicas i) := by
  cases a with
  | command j pointer persistBytes =>
    obtain ⟨c, hc, rfl⟩ := Option.map_eq_some_iff.mp hs
    exact forall_setReplica h ((h j).execute hu hc maxraftstate pointer persistBytes) i
  | save j k =>
    obtain ⟨p, -, rfl⟩ := Option.map_eq_some_iff.mp hs
    refine forall_setReplica h ?_ i
    exact ⟨(h j).index, (h j).state⟩
  | snapshot j k =>
    obtain ⟨p, hp, rfl⟩ := Option.map_eq_some_iff.mp hs
    refine forall_setReplica h ?_ i
    rw [hf, hg p hp]
    exact ⟨(h j).index, (h j).state⟩
  | restart j =>
    cases hs
    refine forall_setReplica h ?_ i
    rw [hf.makeRSM]
    have hzero : (g.replicas j).persister.lastIncludedIndex = 0 := hg
    rw [hzero]
    exact ⟨Nat.zero_le _, rfl⟩

theorem current_of_uncompacted (hu : sm.Uniform) (hf : sm.Forgets) {g : Group ι S B}
    (h : Reaches (Group.step sm ops maxraftstate) Uncompacted (Group.init sm) g) (i : ι) :
    Current sm ops (g.replicas i) := by
  have hkept : ∀ (g : Group ι S B) a g', (∀ i, Current sm ops (g.replicas i)) → Uncompacted g a →
      g.step sm ops maxraftstate a = some g' → ∀ i, Current sm ops (g'.replicas i) :=
    fun g a g' hg ha hs => current_step_of_uncompacted hu hf hg ha hs
  exact h.invariant current_init hkept i

/-- Nobody has taken a snapshot. -/
structure Uncut (g : Group ι S B) : Prop where
  persister : ∀ i, (g.replicas i).persister = ⟨0, none⟩
  snapshots : g.snapshots = []

theorem Uncut.step {g g' : Group ι S B} {a : Handover ι} (h : Uncut g)
    (hs : g.step sm ops (-1) a = some g') : Uncut g' := by
  cases a with
  | command i pointer persistBytes =>
    obtain ⟨c, -, rfl⟩ := Option.map_eq_some_iff.mp hs
    have hnone : ((g.replicas i).execute sm (-1) (.of pointer c) persistBytes).2 = none := by
      simp [Replica.execute, trySnapShot]
    constructor
    · refine forall_setReplica (P := fun r => r.persister = ⟨0, none⟩) h.persister ?_
      change (((g.replicas i).execute sm (-1) (.of pointer c) persistBytes).2).getD
        (g.replicas i).persister = _
      rw [hnone]
      exact h.persister i
    · simp [hnone, h.snapshots]
  | save i k =>
    obtain ⟨p, hp, -⟩ := Option.map_eq_some_iff.mp hs
    simp [h.snapshots] at hp
  | snapshot i k =>
    obtain ⟨p, hp, -⟩ := Option.map_eq_some_iff.mp hs
    simp [h.snapshots] at hp
  | restart i =>
    cases hs
    exact ⟨forall_setReplica (P := fun r => r.persister = ⟨0, none⟩) h.persister (h.persister i),
      h.snapshots⟩

omit [DecidableEq ι] in
theorem Uncut.uncompacted {g : Group ι S B} (h : Uncut g) (a : Handover ι) : Uncompacted g a := by
  cases a with
  | command i pointer persistBytes => trivial
  | save i k => trivial
  | snapshot i k =>
    intro p hp
    simp [h.snapshots] at hp
  | restart i => exact congrArg Persister.lastIncludedIndex (h.persister i)

theorem uncompacted_of_reaches {g : Group ι S B}
    (h : Reaches (Group.step sm ops (-1)) anyStep (Group.init sm) g) :
    Uncut g ∧ Reaches (Group.step sm ops (-1)) Uncompacted (Group.init sm) g := by
  induction h with
  | refl => exact ⟨⟨fun _ => rfl, rfl⟩, .refl⟩
  | tail _ _ taken ih => exact ⟨ih.1.step taken, .tail ih.2 (ih.1.uncompacted _) taken⟩

end Agreement

end DistributedLabs.Rsm
