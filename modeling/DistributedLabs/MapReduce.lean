import DistributedLabs.Directories
import DistributedLabs.MapReduceCoordinator
import DistributedLabs.MapReduceJob
import DistributedLabs.TransitionRuns
import Mathlib.Data.List.Lex
import Mathlib.Data.List.Sort

/-!
# MapReduce workers

The coordinator, any number of workers, and the directory they share. A worker takes
one step of its task at a time, so the steps of different workers mix in any way: a
task may be handed out again while a slow worker is still at it, and a worker may stop
for good between two steps. A map task writes temporary files and renames them to
`mr-out-m-r`; a reduce task reads those, renames its output to `mr-out-r` and removes
them.
-/

namespace DistributedLabs.MapReduce
open Directories TransitionRuns

inductive Name (n : ℕ)
  | temp (i : Fin n) (id : ℕ)
  /-- `mr-out-m-r`, the pairs of map task `m` for reduce task `r` -/
  | inter (m r : ℕ)
  /-- `mr-out-r` -/
  | out (r : ℕ)
  deriving DecidableEq

def interName (m r : ℕ) : List Char :=
  ['m', 'r', '-', 'o', 'u', 't', '-'] ++ (Nat.toDigits 10 m ++ '-' :: Nat.toDigits 10 r)

/-- The map task of a name that matches `^mr-out-\d+-r$`. -/
def Name.matchReduce {n : ℕ} (r : ℕ) : Name n → Option ℕ
  | .inter m r' => if r' = r then some m else none
  | _ => none

/-- A directory is read in the order of the names. -/
def ListedBefore (r m m' : ℕ) : Prop := List.le (interName m r) (interName m' r)

instance (r : ℕ) : DecidableRel (ListedBefore r) :=
  fun m m' => inferInstanceAs (Decidable (List.le (interName m r) (interName m' r)))

def interFiles {n : ℕ} {C : Type} (dir : Dir (Name n) C) (r : ℕ) : List ℕ :=
  (dir.keys.filterMap (Name.matchReduce r)).insertionSort (ListedBefore r)

inductive MapStage (K V : Type)
  | read
  | create (entries : List (KeyValue K V)) (index : ℕ)
  | write (entries : List (KeyValue K V))
  | stat (index : ℕ)
  | rename (index : ℕ)
  | report

inductive ReduceStage (J L : Type)
  | list
  | openFiles (rest : List ℕ) (files : List (List (J ⊕ L)))
  | create (files : List (List (J ⊕ L)))
  | write (lines : List L)
  | stat
  | rename
  /-- `DelFileByReduceId` reads the directory -/
  | listAgain
  | remove (rest : List ℕ)
  | report

/-- What a worker is at; `base` is the first of the temporary names of its task. -/
inductive Activity (F K V J L : Type)
  | idle
  | map (taskId : ℕ) (task : Task F) (nReduce base : ℕ) (stage : MapStage K V)
  | reduce (r : ℕ) (base : ℕ) (stage : ReduceStage J L)
  | exited

structure Worker (F K V J L : Type) where
  next : ℕ
  activity : Activity F K V J L

structure World (n : ℕ) (F K V J L : Type) where
  dir : Dir (Name n) (J ⊕ L)
  coordinator : Coordinator F
  workers : Fin n → Worker F K V J L
  /-- history: the intermediate files that were removed -/
  removed : List (ℕ × ℕ)

inductive Action (n : ℕ) (K : Type)
  /-- the coordinator looks at each task at a time of its own -/
  | heartbeat (i : Fin n) (now : ℕ → ℤ)
  /-- a map worker reads its input; its map from keys to values is visited in this order -/
  | read (i : Fin n) (order : List K)
  | run (i : Fin n)
  | stop (i : Fin n)

section System
variable {n : ℕ} {F T K V J L : Type} [LinearOrder K] (job : Job F T K V J L)

/-- The decoder stops at the first thing that is not a pair. -/
def decodeFile : List (J ⊕ L) → List (KeyValue K V)
  | .inl j :: rest =>
    match job.decode j with
    | some kv => kv :: decodeFile rest
    | none => []
  | _ => []

namespace World

def init (currentTime : ℤ) : World n F K V J L :=
  ⟨∅, .make job.files job.nReduce currentTime, fun _ => ⟨0, .idle⟩, []⟩

def setActivity (w : World n F K V J L) (i : Fin n) (a : Activity F K V J L) : World n F K V J L :=
  { w with workers := Function.update w.workers i { w.workers i with activity := a } }

/-- An answer without a task would make a map worker panic. -/
def heartbeat (w : World n F K V J L) (i : Fin n) (now : ℕ → ℤ) : World n F K V J L :=
  let (c, response) := w.coordinator.heartBeat now
  let next := (w.workers i).next
  let worker : Worker F K V J L :=
    match response.jobType, response.task with
    | .mapJob, some task =>
      ⟨next + response.nReduce, .map response.taskId task response.nReduce next .read⟩
    | .mapJob, none => ⟨next, .exited⟩
    | .reduceJob, _ => ⟨next + 1, .reduce response.taskId next .list⟩
    | .waitJob, _ => ⟨next, .idle⟩
    | .completeJob, _ => ⟨next, .exited⟩
  { w with coordinator := c, workers := Function.update w.workers i worker }

/-- `doMapTask` up to the map from keys to values. -/
def readInput (w : World n F K V J L) (i : Fin n) (taskId : ℕ) (task : Task F)
    (nReduce base : ℕ) (order : List K) : Option (World n F K V J L) :=
  match task.fileName with
  | none => some (w.setActivity i .exited)
  | some filename =>
    let kva := job.sortByKey (job.mapf filename (job.content filename))
    if order.Perm (Job.keysOf kva) then
      some (w.setActivity i (.map taskId task nReduce base (.create (Job.entries kva order) 0)))
    else none

/-- The next step of `doMapTask`, and the report after it. -/
def runMap (w : World n F K V J L) (i : Fin n) (taskId : ℕ) (task : Task F) (nReduce base : ℕ) :
    MapStage K V → Option (World n F K V J L)
  | .read => none
  | .create entries index =>
    if index < nReduce then
      some { w.setActivity i (.map taskId task nReduce base (.create entries (index + 1))) with
        dir := w.dir.create (.temp i (base + index)) }
    else some (w.setActivity i (.map taskId task nReduce base (.write entries)))
  | .write [] => some (w.setActivity i (.map taskId task nReduce base (.stat 0)))
  | .write (kv :: rest) =>
    some { w.setActivity i (.map taskId task nReduce base (.write rest)) with
      dir := w.dir.append (.temp i (base + job.ihash kv.key % nReduce)) (.inl (job.encode kv)) }
  | .stat index =>
    if index < nReduce then
      match w.dir.lookup (.inter task.id index) with
      | none => some (w.setActivity i (.map taskId task nReduce base (.rename index)))
      | some _ => some (w.setActivity i (.map taskId task nReduce base (.stat (index + 1))))
    else some (w.setActivity i (.map taskId task nReduce base .report))
  | .rename index =>
    some { w.setActivity i (.map taskId task nReduce base (.stat (index + 1))) with
      dir := w.dir.rename (.temp i (base + index)) (.inter task.id index) }
  | .report =>
    some { w.setActivity i .idle with coordinator := w.coordinator.report .mapJob taskId }

def runReduce (w : World n F K V J L) (i : Fin n) (r base : ℕ) : ReduceStage J L → World n F K V J L
  | .list => w.setActivity i (.reduce r base (.openFiles (interFiles w.dir r) []))
  | .openFiles [] files => w.setActivity i (.reduce r base (.create files))
  | .openFiles (m :: rest) files =>
    match w.dir.lookup (.inter m r) with
    -- `log.Fatalf`
    | none => w.setActivity i .exited
    | some file => w.setActivity i (.reduce r base (.openFiles rest (files ++ [file])))
  | .create files =>
    { w.setActivity i
        (.reduce r base (.write (job.reduceLines (files.flatMap (decodeFile job))))) with
      dir := w.dir.create (.temp i base) }
  | .write [] => w.setActivity i (.reduce r base .stat)
  | .write (line :: rest) =>
    { w.setActivity i (.reduce r base (.write rest)) with
      dir := w.dir.append (.temp i base) (.inr line) }
  | .stat =>
    match w.dir.lookup (.out r) with
    | none => w.setActivity i (.reduce r base .rename)
    | some _ => w.setActivity i (.reduce r base .listAgain)
  | .rename =>
    { w.setActivity i (.reduce r base .listAgain) with
      dir := w.dir.rename (.temp i base) (.out r) }
  | .listAgain => w.setActivity i (.reduce r base (.remove (interFiles w.dir r)))
  | .remove [] => w.setActivity i (.reduce r base .report)
  | .remove (m :: rest) =>
    match w.dir.lookup (.inter m r) with
    -- an error ends the loop
    | none => w.setActivity i (.reduce r base .report)
    | some _ =>
      { w.setActivity i (.reduce r base (.remove rest)) with
        dir := w.dir.remove (.inter m r)
        removed := w.removed ++ [(m, r)] }
  | .report => { w.setActivity i .idle with coordinator := w.coordinator.report .reduceJob r }

def step (w : World n F K V J L) : Action n K → Option (World n F K V J L)
  | .heartbeat i now =>
    match (w.workers i).activity with
    | .idle => some (w.heartbeat i now)
    | _ => none
  | .read i order =>
    match (w.workers i).activity with
    | .map taskId task nReduce base .read => w.readInput job i taskId task nReduce base order
    | _ => none
  | .run i =>
    match (w.workers i).activity with
    | .map taskId task nReduce base stage => w.runMap job i taskId task nReduce base stage
    | .reduce r base stage => some (w.runReduce job i r base stage)
    | _ => none
  | .stop i => some (w.setActivity i .exited)

end World
end System
end DistributedLabs.MapReduce
