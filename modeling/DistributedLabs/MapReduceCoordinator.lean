import Mathlib.Data.Int.Notation
import Mathlib.Data.List.Basic

/-!
# The MapReduce coordinator

The coordinator hands out the map tasks, then the reduce tasks. It hands a task out
again when no report has come for it within 10 seconds, and it accepts every report.
So a task may be run by several workers, but a finished task stays finished, and a
phase ends only when all its tasks are.
-/

namespace DistributedLabs.MapReduce

inductive TaskStatus
  | idle
  | paused
  | running
  | finished
  deriving DecidableEq

inductive SchedulePhase
  | map
  | reduce
  | done
  deriving DecidableEq

inductive JobType
  | mapJob
  | reduceJob
  | waitJob
  | completeJob
  deriving DecidableEq

/-- A reduce task has no file name. Times are in seconds. -/
structure Task (F : Type) where
  fileName : Option F
  id : ℕ
  startTime : ℤ
  status : TaskStatus

structure HeartbeatResponse (F : Type) where
  jobType : JobType
  taskId : ℕ
  task : Option (Task F)
  nReduce : ℕ

structure Coordinator (F : Type) where
  nReduce : ℕ
  nMap : ℕ
  phase : SchedulePhase
  tasks : List (Task F)

/-- A task that was handed out more than 10 seconds ago may be handed out again. -/
def Task.available {F : Type} (t : Task F) (now : ℤ) : Bool :=
  match t.status with
  | .idle | .paused => true
  | .running => now - t.startTime > 10
  | .finished => false

namespace Coordinator
variable {F : Type}

def make (files : List F) (nReduce : ℕ) (currentTime : ℤ) : Coordinator F where
  nReduce := nReduce
  nMap := files.length
  phase := .map
  tasks := files.mapIdx (fun i file => ⟨some file, i, currentTime, .idle⟩) ++
    (List.range nReduce).map fun r => ⟨none, files.length + r, currentTime, .idle⟩

/-- A task goes out to a worker. -/
def handOut (c : Coordinator F) (position : ℕ) (t : Task F) (now : ℤ) : Coordinator F :=
  { c with tasks := c.tasks.set position { t with status := .running, startTime := now } }

/-- The loop over the tasks of a phase, which start at `first`, with the time at which it comes to
each. -/
def assign (c : Coordinator F) (jobType : JobType) (first count : ℕ) (now : ℕ → ℤ) :
    Coordinator F × HeartbeatResponse F :=
  match (List.range count).find? fun index =>
    (c.tasks[first + index]?).any fun t => t.available (now index) with
  | some index =>
    match c.tasks[first + index]? with
    | some t =>
      (c.handOut (first + index) t (now index),
        ⟨jobType, index, some { t with status := .running, startTime := now index }, c.nReduce⟩)
    | none => (c, ⟨.waitJob, 0, none, c.nReduce⟩)
  | none => (c, ⟨.waitJob, 0, none, c.nReduce⟩)

def heartBeat (c : Coordinator F) (now : ℕ → ℤ) : Coordinator F × HeartbeatResponse F :=
  match c.phase with
  | .done => (c, ⟨.completeJob, 0, none, c.nReduce⟩)
  | .map => c.assign .mapJob 0 c.nMap now
  | .reduce => c.assign .reduceJob c.nMap c.nReduce now

/-- The tasks of a phase are all finished. -/
def allFinished (c : Coordinator F) (first count : ℕ) : Bool :=
  (List.range count).all fun index =>
    (c.tasks[first + index]?).any fun t => t.status = .finished

/-- A report is accepted however late it comes. -/
def report (c : Coordinator F) (jobType : JobType) (taskId : ℕ) : Coordinator F :=
  let index := if jobType = .reduceJob then taskId + c.nMap else taskId
  let c : Coordinator F :=
    { c with tasks := c.tasks.modify index fun t => { t with status := .finished } }
  let c : Coordinator F :=
    if c.phase = .reduce ∧ c.allFinished c.nMap c.nReduce then { c with phase := .done } else c
  if c.phase = .map ∧ c.allFinished 0 c.nMap then { c with phase := .reduce } else c

/-- The tasks are those of the job, each at its place. -/
structure WellFormed (files : List F) (nReduce : ℕ) (c : Coordinator F) : Prop where
  nMap_eq : c.nMap = files.length
  nReduce_eq : c.nReduce = nReduce
  length : c.tasks.length = files.length + nReduce
  task : ∀ (index : ℕ) (t : Task F), c.tasks[index]? = some t →
    t.id = index ∧ t.fileName = files[index]?

def Finished (c : Coordinator F) (index : ℕ) : Prop :=
  ∃ t : Task F, c.tasks[index]? = some t ∧ t.status = .finished

variable {files : List F} {nReduce : ℕ} {c c' : Coordinator F}

theorem make_wellFormed (files : List F) (nReduce : ℕ) (now : ℤ) :
    (make files nReduce now).WellFormed files nReduce where
  nMap_eq := rfl
  nReduce_eq := rfl
  length := by simp [make]
  task := by
    intro index t ht
    simp only [make, List.getElem?_append, List.length_mapIdx] at ht
    split_ifs at ht with hlt
    · obtain ⟨file, hfile, rfl⟩ : ∃ file, files[index]? = some file ∧
          (⟨some file, index, now, .idle⟩ : Task F) = t := by simpa using ht
      exact ⟨rfl, hfile.symm⟩
    · obtain ⟨r, hr, rfl⟩ := Option.map_eq_some_iff.mp (List.getElem?_map ▸ ht)
      have hr : index - files.length = r := (List.getElem?_eq_some_iff.mp hr).2 ▸ by simp
      exact ⟨by simp only; omega, (List.getElem?_eq_none (Nat.le_of_not_lt hlt)).symm⟩

theorem idle_of_mem_make {now : ℤ} {t : Task F} (ht : t ∈ (make files nReduce now).tasks) :
    t.status = .idle := by
  simp only [make, List.mem_append, List.mem_mapIdx, List.mem_map] at ht
  rcases ht with ⟨_, _, rfl⟩ | ⟨_, _, rfl⟩ <;> rfl

theorem not_finished_make (files : List F) (nReduce : ℕ) (now : ℤ) (index : ℕ) :
    ¬(make files nReduce now).Finished index := by
  rintro ⟨t, ht, hfinished⟩
  rw [idle_of_mem_make (List.mem_of_getElem? ht)] at hfinished
  cases hfinished

theorem allFinished_iff {first count : ℕ} :
    c.allFinished first count = true ↔ ∀ index < count, c.Finished (first + index) := by
  simp [allFinished, Finished, Option.any_eq_true]

/-- The loop hands out a task that is available, or there is none. -/
theorem assign_cases (c : Coordinator F) (jobType : JobType) (first count : ℕ) (now : ℕ → ℤ) :
    (∃ index < count, ∃ t, c.tasks[first + index]? = some t ∧ t.available (now index) ∧
      c.assign jobType first count now = (c.handOut (first + index) t (now index),
        ⟨jobType, index, some { t with status := .running, startTime := now index }, c.nReduce⟩)) ∨
    (∀ index < count, ∀ t, c.tasks[first + index]? = some t → ¬t.available (now index)) ∧
      c.assign jobType first count now = (c, ⟨.waitJob, 0, none, c.nReduce⟩) := by
  unfold assign
  split
  next index hindex =>
    have hlt : index < count := List.mem_range.mp (List.mem_of_find?_eq_some hindex)
    have hany := List.find?_some hindex
    obtain ⟨t, ht, havailable⟩ := (Option.any_eq_true _ _).mp hany
    left
    refine ⟨index, hlt, t, ht, havailable, ?_⟩
    simp only [ht]
  next hnone =>
    refine Or.inr ⟨fun index hlt t ht havailable => ?_, rfl⟩
    have hnot := List.find?_eq_none.mp hnone index (List.mem_range.mpr hlt)
    simp [ht, havailable] at hnot

/-- What a worker may rely on in an answer. -/
structure Answered (files : List F) (nReduce : ℕ) (c c' : Coordinator F)
    (response : HeartbeatResponse F) : Prop where
  wellFormed : c'.WellFormed files nReduce
  phase : c'.phase = c.phase
  finished : ∀ index, c'.Finished index ↔ c.Finished index
  nReduce_eq : response.nReduce = nReduce
  map : response.jobType = .mapJob → ∃ task : Task F, response.task = some task ∧
    response.taskId < files.length ∧ task.id = response.taskId ∧
      task.fileName = files[response.taskId]?
  reduce : response.jobType = .reduceJob → c.phase = .reduce ∧ response.taskId < nReduce

/-- A task that is handed out keeps its place, and it was not finished. -/
theorem WellFormed.handOut (h : c.WellFormed files nReduce) {index : ℕ} {t : Task F} {now : ℤ}
    (ht : c.tasks[index]? = some t) (havailable : t.available now) :
    (c.handOut index t now).WellFormed files nReduce ∧
      ∀ k, (c.handOut index t now).Finished k ↔ c.Finished k := by
  obtain ⟨hlt, hget⟩ := List.getElem?_eq_some_iff.mp ht
  have hunfinished : t.status ≠ .finished := by
    intro hfinished
    simp [Task.available, hfinished] at havailable
  have htasks : (c.handOut index t now).tasks =
    c.tasks.set index { t with status := .running, startTime := now } := rfl
  refine ⟨⟨h.nMap_eq, h.nReduce_eq, by simpa [htasks] using h.length, ?_⟩, fun k => ?_⟩
  · intro k s hs
    rcases eq_or_ne index k with rfl | hne
    · rw [htasks, List.getElem?_set_self hlt, Option.some.injEq] at hs
      subst hs
      exact h.task index t ht
    · rw [htasks, List.getElem?_set_ne hne] at hs
      exact h.task k s hs
  · rw [Finished, htasks]
    rcases eq_or_ne index k with rfl | hne
    · simp [Finished, hlt, hget, hunfinished]
    · simp [Finished, List.getElem?_set_ne hne]

theorem WellFormed.answered_nothing (h : c.WellFormed files nReduce) {jobType : JobType}
    (hmap : jobType ≠ .mapJob) (hreduce : jobType ≠ .reduceJob) :
    Answered files nReduce c c ⟨jobType, 0, none, c.nReduce⟩ :=
  ⟨h, rfl, fun _ => Iff.rfl, h.nReduce_eq, fun hj => absurd hj hmap, fun hj => absurd hj hreduce⟩

theorem WellFormed.assign (h : c.WellFormed files nReduce) {jobType : JobType}
    {first count : ℕ} {now : ℕ → ℤ}
    (hmap : jobType = .mapJob → first = 0 ∧ count = files.length)
    (hreduce : jobType = .reduceJob → c.phase = .reduce ∧ count = nReduce) :
    Answered files nReduce c (c.assign jobType first count now).1
      (c.assign jobType first count now).2 := by
  rcases c.assign_cases jobType first count now with
    ⟨index, hlt, t, ht, havailable, heq⟩ | ⟨-, heq⟩
  · rw [heq]
    obtain ⟨hwf, hfinished⟩ := h.handOut ht havailable
    refine ⟨hwf, rfl, hfinished, h.nReduce_eq, fun hj => ?_, fun hj => ?_⟩
    · obtain ⟨rfl, rfl⟩ := hmap hj
      rw [Nat.zero_add] at ht
      exact ⟨_, rfl, hlt, h.task index t ht⟩
    · obtain ⟨hphase, rfl⟩ := hreduce hj
      exact ⟨hphase, hlt⟩
  · rw [heq]
    exact h.answered_nothing nofun nofun

theorem WellFormed.heartBeat (h : c.WellFormed files nReduce) (now : ℕ → ℤ) :
    Answered files nReduce c (c.heartBeat now).1 (c.heartBeat now).2 := by
  rw [Coordinator.heartBeat]
  split
  next => exact h.answered_nothing nofun nofun
  next => exact h.assign (fun _ => ⟨rfl, h.nMap_eq⟩) nofun
  next hphase => exact h.assign nofun fun _ => ⟨hphase, h.nReduce_eq⟩

/-- What a report changes: its task is finished, and a phase whose tasks are all finished ends. -/
structure Reported (files : List F) (nReduce index : ℕ) (c c' : Coordinator F) : Prop where
  wellFormed : c'.WellFormed files nReduce
  finished : ∀ k, c'.Finished k ↔ c.Finished k ∨ k = index
  phase : c'.phase = c.phase ∨
    c.phase = .map ∧ c'.phase = .reduce ∧ (∀ m < files.length, c'.Finished m) ∨
    c.phase = .reduce ∧ c'.phase = .done ∧ ∀ r < nReduce, c'.Finished (files.length + r)

/-- The position of the task that a report names. -/
def reportedIndex (files : List F) (jobType : JobType) (taskId : ℕ) : ℕ :=
  if jobType = .reduceJob then taskId + files.length else taskId

theorem WellFormed.finish (h : c.WellFormed files nReduce) {index : ℕ}
    (hlt : index < files.length + nReduce) :
    let c' : Coordinator F :=
      { c with tasks := c.tasks.modify index fun t => { t with status := .finished } }
    c'.WellFormed files nReduce ∧ ∀ k, c'.Finished k ↔ c.Finished k ∨ k = index := by
  have hlt : index < c.tasks.length := h.length ▸ hlt
  refine ⟨⟨h.nMap_eq, h.nReduce_eq, by simpa using h.length, ?_⟩, fun k => ?_⟩
  · intro k s hs
    simp only [List.getElem?_modify] at hs
    obtain ⟨t, ht, rfl⟩ := Option.map_eq_some_iff.mp hs
    split_ifs <;> exact h.task k t ht
  · rcases eq_or_ne index k with rfl | hne
    · simp [Finished, hlt]
    · simp [Finished, hne, hne.symm]

theorem WellFormed.report (h : c.WellFormed files nReduce) (jobType : JobType) (taskId : ℕ)
    (hlt : reportedIndex files jobType taskId < files.length + nReduce) :
    Reported files nReduce (reportedIndex files jobType taskId) c (c.report jobType taskId) := by
  obtain ⟨hwf, hfinished⟩ := h.finish hlt
  have hindex : (if jobType = .reduceJob then taskId + c.nMap else taskId) =
      reportedIndex files jobType taskId := by rw [h.nMap_eq, reportedIndex]
  rw [Coordinator.report, hindex]
  dsimp only
  split_ifs with hreduce hmap hmap
  · exact absurd hmap.1 nofun
  · refine ⟨⟨hwf.nMap_eq, hwf.nReduce_eq, hwf.length, hwf.task⟩, hfinished,
      .inr (.inr ⟨hreduce.1, rfl, ?_⟩)⟩
    have hall := allFinished_iff.mp hreduce.2
    rw [h.nMap_eq, h.nReduce_eq] at hall
    exact hall
  · refine ⟨⟨hwf.nMap_eq, hwf.nReduce_eq, hwf.length, hwf.task⟩, hfinished,
      .inr (.inl ⟨hmap.1, rfl, ?_⟩)⟩
    have hall := allFinished_iff.mp hmap.2
    simp only [h.nMap_eq, Nat.zero_add] at hall
    exact hall
  · exact ⟨hwf, hfinished, .inl rfl⟩

end Coordinator
end DistributedLabs.MapReduce
