import DistributedLabs.LinkedNodes
import DistributedLabs.PorcupineBitset
import Mathlib.Data.List.Sort
import Mathlib.Data.Int.Notation

/-!
# The linearizability checker

`checkSingle` looks for an order of the operations of a history that a sequential model allows. It
keeps the calls and returns that are not in the order yet as a doubly linked list. A call in front
of the first return may come next: if the model allows its output, call and return are taken out
of the list and the search goes on from the front. At a return no call is left to try, and the last
operation of the order is put back. What was reached is kept in a cache, so that no set of
operations is tried twice with one state of the model.

The nodes of the list are named by the places of their entries in the history; the node in front of
the list has the next name. Where the program would panic, because it follows a nil pointer, is
behind the end of a slice or finds a value of another type, the functions here are `none`.
-/

namespace DistributedLabs.Porcupine
open LinkedNodes

variable {S I O : Type}

structure Operation (I O : Type) where
  clientId : ℤ
  input : I
  call : ℤ
  output : O
  ret : ℤ
  deriving DecidableEq

inductive EventKind
  | callEvent
  | returnEvent
  deriving DecidableEq

/-- A value of any type, as far as the checker stores one. -/
inductive Value (I O : Type)
  | nil
  | input (i : I)
  | output (o : O)
  deriving DecidableEq

namespace Value

/-- The type assertions of a model's `Step`. -/
def asInput : Value I O → Option I
  | input i => some i
  | _ => none

@[inherit_doc asInput] def asOutput : Value I O → Option O
  | output o => some o
  | _ => none

end Value

structure Event (I O : Type) where
  clientId : ℤ
  kind : EventKind
  value : Value I O
  id : ℤ
  deriving DecidableEq

/-- A model as the user gives it; the functions that may be nil have defaults. -/
structure Model (S I O : Type) where
  partition : Option (List (Operation I O) → List (List (Operation I O)))
  partitionEvent : Option (List (Event I O) → List (List (Event I O)))
  init : S
  step : S → I → O → Bool × S
  equal : Option (S → S → Bool)

/-- A model none of whose functions is nil. -/
structure FilledModel (S I O : Type) where
  partition : List (Operation I O) → List (List (Operation I O))
  partitionEvent : List (Event I O) → List (List (Event I O))
  init : S
  step : S → I → O → Bool × S
  equal : S → S → Bool

def noPartition (history : List (Operation I O)) : List (List (Operation I O)) := [history]

def noPartitionEvent (history : List (Event I O)) : List (List (Event I O)) := [history]

def shallowEqual [DecidableEq S] (state1 state2 : S) : Bool := state1 = state2

def fillDefault [DecidableEq S] (model : Model S I O) : FilledModel S I O where
  partition := model.partition.getD noPartition
  partitionEvent := model.partitionEvent.getD noPartitionEvent
  init := model.init
  step := model.step
  equal := model.equal.getD shallowEqual

inductive EntryKind
  | callEntry
  | returnEntry
  deriving DecidableEq

structure Entry (I O : Type) where
  kind : EntryKind
  value : Value I O
  id : ℕ
  time : ℤ
  clientId : ℤ
  deriving DecidableEq

/-- The order of `byTime`: at one time calls come before returns. -/
def less (a b : Entry I O) : Bool :=
  if a.time ≠ b.time then a.time < b.time
  else a.kind = .callEntry ∧ b.kind = .returnEntry

/-- A sorting function, such as `sort.Sort`, which need not be stable. -/
structure Sorting (I O : Type) where
  sort : List (Entry I O) → List (Entry I O)
  perm : ∀ entries, (sort entries).Perm entries
  sorted : ∀ entries, (sort entries).Pairwise fun a b => ¬less b a

/-- The two entries of each operation, in the order of the history. -/
def operationEntries (history : List (Operation I O)) : List (Entry I O) :=
  history.zipIdx.flatMap fun (elem, id) =>
    [⟨.callEntry, .input elem.input, id, elem.call, elem.clientId⟩,
      ⟨.returnEntry, .output elem.output, id, elem.ret, elem.clientId⟩]

def makeEntries (sorting : Sorting I O) (history : List (Operation I O)) : List (Entry I O) :=
  sorting.sort (operationEntries history)

/-- Events with their numbers replaced by 0, 1, and so on, in the order they first appear in. The
numbers given so far are in `m`. -/
def renumberFrom (m : ℤ → Option ℕ) (id : ℕ) : List (Event I O) → List (Event I O)
  | [] => []
  | v :: events =>
    match m v.id with
    | some r => { v with id := r } :: renumberFrom m id events
    | none => { v with id := id } :: renumberFrom (Function.update m v.id (some id)) (id + 1) events

def renumber (events : List (Event I O)) : List (Event I O) := renumberFrom (fun _ => none) 0 events

/-- The place of an event is its time. -/
def convertEntries (events : List (Event I O)) : List (Entry I O) :=
  events.zipIdx.map fun (elem, i) =>
    ⟨if elem.kind = .returnEvent then .returnEntry else .callEntry, elem.value, elem.id.toNat, i,
      elem.clientId⟩

/-- A node without its links. `matching` is nil in the node of a return. -/
structure NodeData (I O : Type) where
  value : Value I O
  matching : Option ℕ
  id : ℤ

abbrev NodeHeap (I O : Type) := Heap (NodeData I O) ℕ

/-- A new node, not linked to any other. -/
def alloc (h : NodeHeap I O) (n : ℕ) (data : NodeData I O) : NodeHeap I O :=
  Function.update h n (some ⟨data, none, none⟩)

def insertBefore (h : NodeHeap I O) (n : ℕ) (mark : Option ℕ) : Option (NodeHeap I O) :=
  match mark with
  | none => some h
  | some mark => do
    let beforeMark := (← h mark).prev
    let h ← setPrev h mark (some n)
    let h ← setNext h n (some mark)
    match beforeMark with
    | none => some h
    | some beforeMark => do
      let h ← setPrev h n (some beforeMark)
      setNext h beforeMark (some n)

/-- How many nodes there are from a node on; the loop ends if there are at most `fuel`. -/
def length (h : NodeHeap I O) : ℕ → Option ℕ → Option ℕ
  | _, none => some 0
  | 0, some _ => none
  | fuel + 1, some n => do
    let node ← h n
    let l ← length h fuel node.next
    return l + 1

/-- The local variables of `makeLinkedEntries`. -/
structure Linking (I O : Type) where
  heap : NodeHeap I O
  root : Option ℕ
  matching : ℕ → Option ℕ

def linkEntry (elem : Entry I O × ℕ) (l : Linking I O) : Option (Linking I O) :=
  match elem with
  | (elem, i) =>
    match elem.kind with
    | .returnEntry => do
      let heap ← insertBefore (alloc l.heap i ⟨elem.value, none, elem.id⟩) i l.root
      return ⟨heap, some i, Function.update l.matching elem.id (some i)⟩
    | .callEntry => do
      let heap ← insertBefore (alloc l.heap i ⟨elem.value, l.matching elem.id, elem.id⟩) i l.root
      return ⟨heap, some i, l.matching⟩

/-- From the last entry to the first. -/
def makeLinkedEntries (entries : List (Entry I O)) : Option (Linking I O) :=
  entries.zipIdx.foldrM linkEntry ⟨fun _ => none, none, fun _ => none⟩

/-- A call and its return are taken out of the list. Something follows the call, so its successor
is not compared with nil. -/
def lift (h : NodeHeap I O) (entry : ℕ) : Option (NodeHeap I O) := do
  let node ← h entry
  let h ← setNext h (← node.prev) node.next
  let h ← setPrev h (← node.next) node.prev
  unlink h (← node.data.matching)

/-- They are put back, the return first. -/
def unlift (h : NodeHeap I O) (entry : ℕ) : Option (NodeHeap I O) := do
  let matching ← (← h entry).data.matching
  let h ← relink h matching
  let node ← h entry
  let h ← setNext h (← node.prev) (some entry)
  setPrev h (← node.next) (some entry)

structure CacheEntry (S : Type) where
  linearized : Bitset
  state : S

abbrev Cache (S : Type) := UInt64 → List (CacheEntry S)

def cacheContains (model : FilledModel S I O) (cache : Cache S) (entry : CacheEntry S) : Bool :=
  (cache entry.linearized.hash).any fun elem =>
    entry.linearized.equals elem.linearized && model.equal entry.state elem.state

def Cache.append (cache : Cache S) (entry : CacheEntry S) : Cache S :=
  Function.update cache entry.linearized.hash (cache entry.linearized.hash ++ [entry])

structure CallsEntry (S : Type) where
  entry : ℕ
  state : S

/-- A pointer to a sequence of operations. Sequences are not changed once there is a pointer to
them, and each has its own address. -/
structure SeqPtr where
  address : ℕ
  seq : List ℤ
  deriving DecidableEq

/-- A sequence is noted for an operation unless there is one that is not shorter. -/
def recordFor (callsLen : ℕ) (seq : SeqPtr) (longest : List (Option SeqPtr)) (id : ℤ) :
    Option (List (Option SeqPtr)) :=
  longest[id.toNat]?.map fun old =>
    if (old.all fun old => callsLen > old.seq.length) then longest.set id.toNat (some seq) else longest

/-- The local variables of `checkSingle`. The last of `calls` stands first; `sequences` counts the
sequences that were made. -/
structure Search (S I O : Type) where
  heap : NodeHeap I O
  entry : Option ℕ
  linearized : Bitset
  cache : Cache S
  calls : List (CallsEntry S)
  longest : List (Option SeqPtr)
  sequences : ℕ
  state : S

namespace Search

/-- The operations of `calls`, the first one first. -/
def sequence (s : Search S I O) : Option (List ℤ) :=
  s.calls.reverse.mapM fun v => (s.heap v.entry).map fun node => node.data.id

/-- The order so far is noted for each of its operations that has no longer one. -/
def recordLongest (s : Search S I O) : Option (Search S I O) := do
  let seq ← s.sequence
  let longest ← seq.foldlM (recordFor s.calls.length ⟨s.sequences, seq⟩) s.longest
  return { s with longest, sequences := s.sequences + 1 }

/-- Orders are noted only if partial linearizations are asked for. -/
def recordPartial (computePartial : Bool) (s : Search S I O) : Option (Search S I O) :=
  if computePartial then s.recordLongest else some s

end Search

inductive Iteration (S I O : Type)
  | returned (ok : Bool) (longest : List (Option SeqPtr))
  | again (s : Search S I O)

section
variable (model : FilledModel S I O)

/-- The entry is a call: it is tried as the next operation. -/
def tryCall (headEntry entry matching : ℕ) (node : Node (NodeData I O) ℕ) (s : Search S I O) :
    Option (Search S I O) := do
  let input ← node.data.value.asInput
  let output ← (← s.heap matching).data.value.asOutput
  let (ok, newState) := model.step s.state input output
  if ok then
    let newLinearized ← s.linearized.set node.data.id.toNat
    if cacheContains model s.cache ⟨newLinearized, newState⟩ then
      return { s with entry := node.next }
    else
      let heap ← lift s.heap entry
      return { s with
        cache := s.cache.append ⟨newLinearized, newState⟩
        calls := ⟨entry, s.state⟩ :: s.calls
        state := newState
        linearized := newLinearized
        heap
        entry := (← heap headEntry).next }
  else return { s with entry := node.next }

/-- The entry is a return: the last operation is put back. -/
def backtrack (computePartial : Bool) (s : Search S I O) (callsTop : CallsEntry S)
    (calls : List (CallsEntry S)) : Option (Search S I O) := do
  let s ← s.recordPartial computePartial
  let node ← s.heap callsTop.entry
  let linearized ← s.linearized.clear node.data.id.toNat
  let heap ← unlift s.heap callsTop.entry
  return { s with
    state := callsTop.state
    linearized
    calls
    heap
    entry := (← heap callsTop.entry).next }

/-- The condition of the loop of `checkSingle` and its body, where `killed` is what it reads of the
flag that stops it. -/
def iteration (computePartial : Bool) (headEntry : ℕ) (killed : Bool) (s : Search S I O) :
    Option (Iteration S I O) := do
  let head ← s.heap headEntry
  if head.next = none then
    let seq ← s.sequence
    return .returned true (s.longest.map fun _ => some ⟨s.sequences, seq⟩)
  else if killed then return .returned false s.longest
  else
    let entry ← s.entry
    let node ← s.heap entry
    match node.data.matching with
    | some matching => return .again (← tryCall model headEntry entry matching node s)
    | none =>
      match s.calls with
      | [] => return .returned false s.longest
      | callsTop :: calls => return .again (← backtrack computePartial s callsTop calls)

/-- What `checkSingle` does before its loop. -/
def startSearch (history : List (Entry I O)) : Option (Search S I O) := do
  let linked ← makeLinkedEntries history
  let n := (← length linked.heap history.length linked.root) / 2
  let headEntry := history.length
  let heap ← insertBefore (alloc linked.heap headEntry ⟨.nil, none, -1⟩) headEntry linked.root
  return {
    heap
    entry := linked.root
    linearized := Bitset.newBitset n
    cache := fun _ => []
    calls := []
    longest := List.replicate n none
    sequences := 0
    state := model.init }

/-- Where a run of the checker is. -/
inductive Progress (S I O : Type)
  | panicked
  | running (s : Search S I O)
  | returned (ok : Bool) (longest : List (Option SeqPtr))

/-- At most `fuel` iterations of the loop; `kill` has what each of them reads of the flag. -/
def checkLoop (computePartial : Bool) (headEntry : ℕ) (kill : ℕ → Bool) :
    ℕ → ℕ → Search S I O → Progress S I O
  | 0, _, s => .running s
  | fuel + 1, i, s =>
    match iteration model computePartial headEntry (kill i) s with
    | none => .panicked
    | some (.returned ok longest) => .returned ok longest
    | some (.again s) => checkLoop computePartial headEntry kill fuel (i + 1) s

def checkSingle (history : List (Entry I O)) (computePartial : Bool) (kill : ℕ → Bool) (fuel : ℕ) :
    Progress S I O :=
  match startSearch model history with
  | none => .panicked
  | some s => checkLoop model computePartial history.length kill fuel 0 s

end

end DistributedLabs.Porcupine
