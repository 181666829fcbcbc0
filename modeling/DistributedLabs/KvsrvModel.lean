import DistributedLabs.PorcupineHistory

/-!
# The model of the single key/value server

`KvModel` has one string for each key. A history is checked key by key, which is enough: it is
linearizable as a history of the whole store if and only if each part of it is.
-/

namespace DistributedLabs.KvsrvModels
open Linearizability Porcupine

/-- `op` is 0 for a get, 1 for a put and 2 for an append; any other is an append that returns the
value before it. -/
structure KvInput where
  op : UInt8
  key : String
  value : String
  deriving DecidableEq

structure KvOutput where
  value : String
  deriving DecidableEq

namespace KvModel

/-- The operations of each key, in their order. -/
def byKey (history : List (Operation KvInput KvOutput)) : String → List (Operation KvInput KvOutput) :=
  history.foldl (fun m v => Function.update m v.input.key (m v.input.key ++ [v])) fun _ => []

/-- The keys that operations have been filed under. -/
def keys (history : List (Operation KvInput KvOutput)) : List String :=
  ((history.map fun v => v.input.key).dedup).insertionSort (· ≤ ·)

def partition (history : List (Operation KvInput KvOutput)) : List (List (Operation KvInput KvOutput)) :=
  (keys history).map (byKey history)

def step (st : String) (inp : KvInput) (out : KvOutput) : Bool × String :=
  if inp.op = 0 then (out.value = st, st)
  else if inp.op = 1 then (true, inp.value)
  else if inp.op = 2 then (true, st ++ inp.value)
  else (out.value = st, st ++ inp.value)

end KvModel

def kvModel : Model String KvInput KvOutput where
  partition := some KvModel.partition
  partitionEvent := none
  init := ""
  step := KvModel.step
  equal := none

namespace KvModel

variable {history : List (Operation KvInput KvOutput)}

theorem byKey_eq (key : String) : byKey history key = history.filter fun v => v.input.key = key := by
  have hfold : ∀ (l : List (Operation KvInput KvOutput))
      (m : String → List (Operation KvInput KvOutput)),
      l.foldl (fun m v => Function.update m v.input.key (m v.input.key ++ [v])) m key =
        m key ++ l.filter fun v => v.input.key = key := by
    intro l
    induction l with
    | nil => simp
    | cons v l ih =>
      intro m
      rw [List.foldl_cons, ih]
      rcases eq_or_ne v.input.key key with rfl | hne
      · simp
      · simp [hne, Function.update_of_ne hne.symm]
  simpa [byKey] using hfold history fun _ => []

theorem mem_keys {key : String} : key ∈ keys history ↔ ∃ v ∈ history, v.input.key = key := by
  simp [keys]

theorem mem_partition {part : List (Operation KvInput KvOutput)} :
    part ∈ partition history ↔
      ∃ v ∈ history, part = history.filter fun u => u.input.key = v.input.key := by
  simp only [partition, List.mem_map, mem_keys, byKey_eq]
  constructor
  · rintro ⟨key, ⟨v, hv, rfl⟩, rfl⟩
    exact ⟨v, hv, rfl⟩
  · rintro ⟨v, hv, rfl⟩
    exact ⟨_, ⟨v, hv, rfl⟩, rfl⟩

theorem partition_eq_nil_iff : partition history = [] ↔ history = [] := by
  rw [List.eq_nil_iff_forall_not_mem, List.eq_nil_iff_forall_not_mem]
  constructor
  · intro h v hv
    exact h _ (mem_partition.mpr ⟨v, hv, rfl⟩)
  · rintro h part hpart
    obtain ⟨v, hv, -⟩ := mem_partition.mp hpart
    exact h v hv

theorem mem_of_mem_partition {part : List (Operation KvInput KvOutput)} (hpart : part ∈ partition history)
    {op : Operation KvInput KvOutput} (hop : op ∈ part) : op ∈ history := by
  obtain ⟨v, -, rfl⟩ := mem_partition.mp hpart
  exact List.mem_of_mem_filter hop

end KvModel

open KvModel

/-- An operation on the whole store acts on the string of its key. -/
def nextInStore (store : String → String) (op : Operation KvInput KvOutput) : Option (String → String) :=
  nextAt (fun op : Operation KvInput KvOutput => op.input.key) (fillDefault kvModel).nextOperation store op

theorem nextInStore_eq (store : String → String) (op : Operation KvInput KvOutput) :
    nextInStore store op = if (KvModel.step (store op.input.key) op.input op.output).1 then
      some (Function.update store op.input.key (KvModel.step (store op.input.key) op.input op.output).2)
    else none := by
  change Option.map _ (if (KvModel.step (store op.input.key) op.input op.output).1 then
    some (KvModel.step (store op.input.key) op.input op.output).2 else none) = _
  split_ifs <;> rfl

/-- The history of a whole store, in which each key is the empty string at first. -/
def IsLinearizableStore (history : List (Operation KvInput KvOutput)) : Prop :=
  Linearizable nextInStore (fun _ => "") (fun a b => a.ret < b.call) history

/-- It is enough to look at the parts. -/
theorem isLinearizableStore_iff {history : List (Operation KvInput KvOutput)}
    (htimes : ∀ op ∈ history, op.call ≤ op.ret) :
    IsLinearizableStore history ↔
      ∀ part ∈ partition history, IsLinearizable (fillDefault kvModel) part := by
  have hlocal : IsLinearizableStore history ↔ ∀ key, IsLinearizable (fillDefault kvModel)
      (history.filter fun op => op.input.key = key) := linearizable_nextAt_iff htimes
  refine hlocal.trans ⟨fun h part hpart => ?_, fun h key => ?_⟩
  · obtain ⟨v, -, rfl⟩ := mem_partition.mp hpart
    exact h v.input.key
  · by_cases hkey : ∃ v ∈ history, v.input.key = key
    · obtain ⟨v, hv, rfl⟩ := hkey
      exact h _ (mem_partition.mpr ⟨v, hv, rfl⟩)
    · have hempty : history.filter (fun u => u.input.key = key) = [] := by
        rw [List.filter_eq_nil_iff]
        intro u hu
        simpa using fun heq => hkey ⟨u, hu, heq⟩
      rw [hempty]
      exact ⟨[], .nil, .nil, rfl⟩

theorem equalSound_kvModel : (fillDefault kvModel).EqualSound := by
  intro s t h i o hok
  obtain rfl : s = t := by simpa [fillDefault, kvModel, shallowEqual] using h
  exact ⟨hok, by simp [fillDefault, kvModel, shallowEqual]⟩

/-- A put and a get that overlap. -/
def overlapping : List (Operation KvInput KvOutput) :=
  [⟨0, ⟨1, "x", "a"⟩, 0, ⟨""⟩, 10⟩, ⟨1, ⟨0, "x", ""⟩, 5, ⟨"a"⟩, 20⟩]

theorem call_le_ret_overlapping : ∀ op ∈ overlapping, op.call ≤ op.ret := by decide

end DistributedLabs.KvsrvModels
