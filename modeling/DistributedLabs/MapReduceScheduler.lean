import DistributedLabs.MapReduceCoordinator
import DistributedLabs.TransitionRuns
import Mathlib.Logic.Function.Basic
import Mathlib.Tactic.SplitIfs

/-!
# The scheduler of the MapReduce coordinator

The scheduler takes one heartbeat or one report after the other. Map and reduce tasks share one
array; a worker names a task by its kind and its number in that kind. Beside the
coordinator stands what the workers have seen of it: when each task was handed out last, and which
tasks have been reported. A report is for a task that was handed out, however long ago and to
whomever. The clock is read once for each task that the loop looks at.
-/

namespace DistributedLabs.MapReduce
open TransitionRuns

variable {F : Type}

/-- The task with the number among those of its kind. -/
structure TaskName where
  jobType : JobType
  taskId : ℕ
  deriving DecidableEq

namespace TaskName
variable {nMap nReduce : ℕ} {name name' : TaskName}

/-- There is such a task. -/
def IsTask (nMap nReduce : ℕ) (name : TaskName) : Prop :=
  name.jobType = .mapJob ∧ name.taskId < nMap ∨ name.jobType = .reduceJob ∧ name.taskId < nReduce

/-- Its place in the array. -/
def position (nMap : ℕ) (name : TaskName) : ℕ :=
  if name.jobType = .reduceJob then name.taskId + nMap else name.taskId

theorem isTask_map {m : ℕ} : (mk .mapJob m).IsTask nMap nReduce ↔ m < nMap := by simp [IsTask]

theorem isTask_reduce {r : ℕ} : (mk .reduceJob r).IsTask nMap nReduce ↔ r < nReduce := by simp [IsTask]

theorem IsTask.position_lt (h : name.IsTask nMap nReduce) : name.position nMap < nMap + nReduce := by
  unfold position
  rcases h with ⟨hjob, hlt⟩ | ⟨hjob, hlt⟩
  · rw [hjob, if_neg nofun]
    omega
  · rw [hjob, if_pos rfl]
    omega

theorem IsTask.eq_of_position (h : name.IsTask nMap nReduce) (h' : name'.IsTask nMap nReduce)
    (heq : name.position nMap = name'.position nMap) : name = name' := by
  obtain ⟨job, id⟩ := name
  obtain ⟨job', id'⟩ := name'
  rcases h with ⟨rfl, hlt⟩ | ⟨rfl, hlt⟩ <;> rcases h' with ⟨rfl, hlt'⟩ | ⟨rfl, hlt'⟩ <;>
    simp only [position, reduceCtorEq, if_true, if_false] at heq hlt hlt' <;>
    simp only [mk.injEq, reduceCtorEq, true_and, false_and] <;> omega

end TaskName

namespace SchedulePhase

/-- The kind of the tasks that a phase hands out. -/
def jobType : SchedulePhase → JobType
  | .map => .mapJob
  | .reduce => .reduceJob
  | .done => .completeJob

def next : SchedulePhase → SchedulePhase
  | .map => .reduce
  | .reduce | .done => .done

/-- Where the tasks of the phase start, and how many there are. -/
def first (nMap : ℕ) : SchedulePhase → ℕ
  | .map | .done => 0
  | .reduce => nMap

@[inherit_doc first] def count (nMap nReduce : ℕ) : SchedulePhase → ℕ
  | .map => nMap
  | .reduce => nReduce
  | .done => 0

theorem lt_count_iff (phase : SchedulePhase) (nMap nReduce index : ℕ) :
    index < phase.count nMap nReduce ↔ (TaskName.mk phase.jobType index).IsTask nMap nReduce := by
  cases phase <;> simp [count, jobType, TaskName.IsTask]

theorem first_add (phase : SchedulePhase) (nMap index : ℕ) :
    phase.first nMap + index = (TaskName.mk phase.jobType index).position nMap := by
  cases phase <;> simp [first, jobType, TaskName.position, Nat.add_comm]

end SchedulePhase

namespace Coordinator

def finish (c : Coordinator F) (position : ℕ) : Coordinator F :=
  { c with tasks := c.tasks.modify position fun t => { t with status := .finished } }

/-- The two checks at the end of a report: a phase whose tasks are all finished gives way to the
next one. -/
theorem report_eq (c : Coordinator F) (jobType : JobType) (taskId : ℕ) :
    let finished := c.finish ((TaskName.mk jobType taskId).position c.nMap)
    c.report jobType taskId = { finished with
      phase :=
        if finished.allFinished (c.phase.first c.nMap) (c.phase.count c.nMap c.nReduce) then
          c.phase.next else c.phase } := by
  intro finished
  cases hc : c.phase with
  | map | reduce =>
    simp only [report, hc, SchedulePhase.first, SchedulePhase.count, SchedulePhase.next]
    split_ifs <;> simp_all [finished, finish, TaskName.position]
  | done =>
    simp only [report, hc, SchedulePhase.first, SchedulePhase.count, SchedulePhase.next, ite_self]
    split_ifs <;> simp_all [finished, finish, TaskName.position]

end Coordinator

theorem Coordinator.heartBeat_of_ne_done {c : Coordinator F} (h : c.phase ≠ .done) (now : ℕ → ℤ) :
    c.heartBeat now =
      c.assign c.phase.jobType (c.phase.first c.nMap) (c.phase.count c.nMap c.nReduce) now := by
  unfold heartBeat
  cases hphase : c.phase with
  | map => rfl
  | reduce => rfl
  | done => exact absurd hphase h

/-- The coordinator, when each task was handed out last, and which tasks have been reported. -/
structure Schedule (F : Type) where
  coordinator : Coordinator F
  lastHandedOut : TaskName → Option ℤ
  reported : TaskName → Bool

inductive SchedulerEvent
  | heartBeat (now : ℕ → ℤ)
  | report (name : TaskName)

namespace Schedule

def make (files : List F) (nReduce : ℕ) (currentTime : ℤ) : Schedule F :=
  ⟨.make files nReduce currentTime, fun _ => none, fun _ => false⟩

def step (s : Schedule F) : SchedulerEvent → Option (Schedule F)
  | .heartBeat now =>
    let r := s.coordinator.heartBeat now
    some { s with
      coordinator := r.1
      lastHandedOut :=
        if r.2.task.isSome then
          Function.update s.lastHandedOut ⟨r.2.jobType, r.2.taskId⟩ (some (now r.2.taskId))
        else s.lastHandedOut }
  | .report name =>
    if (s.lastHandedOut name).isSome then
      some { s with
        coordinator := s.coordinator.report name.jobType name.taskId
        reported := Function.update s.reported name true }
    else none

def phase (s : Schedule F) : SchedulePhase := s.coordinator.phase

/-- The task is finished for the coordinator. -/
def Finished (s : Schedule F) (name : TaskName) : Prop :=
  s.coordinator.Finished (name.position s.coordinator.nMap)

/-- The status of a task is what has happened to it. -/
def Tracks (s : Schedule F) (name : TaskName) (t : Task F) : Prop :=
  match s.lastHandedOut name with
  | none => t.status = .idle ∧ s.reported name = false
  | some time =>
    if s.reported name then t.status = .finished else t.status = .running ∧ t.startTime = time

/-- The phase is the one that the reports ask for. -/
def InPhase (nMap nReduce : ℕ) (s : Schedule F) : Prop :=
  match s.phase with
  | .map => (∀ r, s.lastHandedOut ⟨.reduceJob, r⟩ = none) ∧
      ∃ m < nMap, s.reported ⟨.mapJob, m⟩ = false
  | .reduce => (∀ m < nMap, s.reported ⟨.mapJob, m⟩) ∧ ∃ r < nReduce, s.reported ⟨.reduceJob, r⟩ = false
  | .done => ∀ name : TaskName, name.IsTask nMap nReduce → s.reported name

structure Tracked (files : List F) (nReduce : ℕ) (s : Schedule F) : Prop where
  wellFormed : s.coordinator.WellFormed files nReduce
  known : ∀ name : TaskName, s.lastHandedOut name ≠ none → name.IsTask files.length nReduce
  tracks : ∀ name : TaskName, name.IsTask files.length nReduce → ∀ t,
    s.coordinator.tasks[name.position files.length]? = some t → s.Tracks name t

structure Sound (files : List F) (nReduce : ℕ) (s : Schedule F) : Prop
    extends Tracked files nReduce s where
  inPhase : s.InPhase files.length nReduce

/-- A task of the present phase that is not finished and has not been handed out during the last 10
seconds. -/
def Due (s : Schedule F) (now : ℕ → ℤ) (taskId : ℕ) : Prop :=
  (TaskName.mk s.phase.jobType taskId).IsTask s.coordinator.nMap s.coordinator.nReduce ∧
    ¬s.Finished ⟨s.phase.jobType, taskId⟩ ∧
      ∀ time, s.lastHandedOut ⟨s.phase.jobType, taskId⟩ = some time → now taskId - time > 10

variable {files : List F} {nReduce : ℕ} {s s' : Schedule F} {name : TaskName} {t : Task F}

theorem Tracks.congr (h : s.Tracks name t) (hlast : s'.lastHandedOut name = s.lastHandedOut name)
    (hreported : s'.reported name = s.reported name) : s'.Tracks name t := by
  rw [Tracks, hlast, hreported]
  exact h

theorem Tracks.finished_iff (h : s.Tracks name t) : t.status = .finished ↔ s.reported name := by
  unfold Tracks at h
  split at h
  · simp [h.1, h.2]
  · split_ifs at h with hreported
    · simp [h, hreported]
    · simp [h.1, hreported]

theorem Tracks.available_iff (h : s.Tracks name t) (now : ℤ) : t.available now ↔
    t.status ≠ .finished ∧ ∀ time, s.lastHandedOut name = some time → now - time > 10 := by
  unfold Tracks at h
  split at h
  next hnone => simp [Task.available, h.1, hnone]
  next time hsome =>
    split_ifs at h
    · simp [Task.available, h]
    · simp [Task.available, h.1, h.2, hsome]

namespace Tracked

theorem exists_task (h : s.Tracked files nReduce) (hname : name.IsTask files.length nReduce) :
    ∃ t, s.coordinator.tasks[name.position files.length]? = some t ∧ s.Tracks name t := by
  have hlt : name.position files.length < s.coordinator.tasks.length :=
    h.wellFormed.length ▸ hname.position_lt
  exact ⟨_, List.getElem?_eq_getElem hlt, h.tracks name hname _ (List.getElem?_eq_getElem hlt)⟩

theorem finished_iff (h : s.Tracked files nReduce) (hname : name.IsTask files.length nReduce) :
    s.Finished name ↔ s.reported name := by
  obtain ⟨t, ht, htracks⟩ := h.exists_task hname
  rw [← htracks.finished_iff, Finished, h.wellFormed.nMap_eq, Coordinator.Finished, ht]
  simp

theorem due_iff (h : s.Tracked files nReduce) {now : ℕ → ℤ} {taskId : ℕ} {t : Task F}
    (hname : (TaskName.mk s.phase.jobType taskId).IsTask files.length nReduce)
    (ht : s.coordinator.tasks[(TaskName.mk s.phase.jobType taskId).position files.length]? = some t) :
    s.Due now taskId ↔ t.available (now taskId) := by
  have htracks := h.tracks _ hname t ht
  rw [htracks.available_iff, Due, h.wellFormed.nMap_eq, h.wellFormed.nReduce_eq,
    h.finished_iff hname, Ne, htracks.finished_iff]
  simp [hname]

/-- What a heartbeat can do. -/
theorem heartBeat_cases (h : s.Tracked files nReduce) (now : ℕ → ℤ) :
    s.phase = .done ∧
      s.coordinator.heartBeat now = (s.coordinator, ⟨.completeJob, 0, none, nReduce⟩) ∨
    s.phase ≠ .done ∧ (∃ taskId t, s.Due now taskId ∧
      s.coordinator.tasks[(TaskName.mk s.phase.jobType taskId).position files.length]? = some t ∧
      s.coordinator.heartBeat now =
        (s.coordinator.handOut ((TaskName.mk s.phase.jobType taskId).position files.length) t
          (now taskId), ⟨s.phase.jobType, taskId,
            some { t with status := .running, startTime := now taskId }, nReduce⟩)) ∨
    s.phase ≠ .done ∧ (¬∃ taskId, s.Due now taskId) ∧
      s.coordinator.heartBeat now = (s.coordinator, ⟨.waitJob, 0, none, nReduce⟩) := by
  by_cases hdone : s.phase = .done
  · left
    refine ⟨hdone, ?_⟩
    unfold phase at hdone
    rw [Coordinator.heartBeat, hdone, h.wellFormed.nReduce_eq]
  right
  rw [Coordinator.heartBeat_of_ne_done hdone, h.wellFormed.nMap_eq, h.wellFormed.nReduce_eq]
  have hcases := s.coordinator.assign_cases s.phase.jobType (s.phase.first files.length)
    (s.phase.count files.length nReduce) now
  simp only [SchedulePhase.first_add, h.wellFormed.nReduce_eq] at hcases
  rcases hcases with ⟨index, hlt, t, ht, havailable, hres⟩ | ⟨hnone, hres⟩
  · have hname := (s.phase.lt_count_iff files.length nReduce index).mp hlt
    exact Or.inl ⟨hdone, index, t, (h.due_iff hname ht).mpr havailable, ht, hres⟩
  · refine Or.inr ⟨hdone, ?_, hres⟩
    rintro ⟨taskId, hdue⟩
    have hname := hdue.1
    rw [h.wellFormed.nMap_eq, h.wellFormed.nReduce_eq] at hname
    obtain ⟨t, ht, -⟩ := h.exists_task hname
    exact hnone taskId ((s.phase.lt_count_iff files.length nReduce taskId).mpr hname) t ht
      ((h.due_iff hname ht).mp hdue)

/-- All tasks of a phase are finished when all of them have been reported. -/
theorem allFinished_iff (h : s.Tracked files nReduce) (p : SchedulePhase) :
    s.coordinator.allFinished (p.first files.length) (p.count files.length nReduce) ↔
      ∀ taskId, (TaskName.mk p.jobType taskId).IsTask files.length nReduce →
        s.reported ⟨p.jobType, taskId⟩ := by
  rw [Coordinator.allFinished_iff]
  refine forall_congr' fun taskId => ?_
  rw [SchedulePhase.lt_count_iff, SchedulePhase.first_add]
  refine forall_congr' fun hname => ?_
  rw [← h.finished_iff hname, Finished, h.wellFormed.nMap_eq]

theorem not_reported (h : s.Tracked files nReduce) (hname : name.IsTask files.length nReduce)
    (hnone : s.lastHandedOut name = none) : s.reported name = false := by
  obtain ⟨t, -, htracks⟩ := h.exists_task hname
  rw [Tracks, hnone] at htracks
  exact htracks.2

end Tracked

theorem sound_make (files : List F) (nReduce : ℕ) (now : ℤ) (h : 0 < files.length) :
    (make files nReduce now).Sound files nReduce where
  wellFormed := Coordinator.make_wellFormed files nReduce now
  known _ hne := absurd rfl hne
  tracks _ _ _ ht := ⟨Coordinator.idle_of_mem_make (List.mem_of_getElem? ht), rfl⟩
  inPhase := ⟨fun _ => rfl, 0, h, rfl⟩

/-- The task goes out at this time. -/
def handing (s : Schedule F) (position taskId : ℕ) (t : Task F) (now : ℤ) : Schedule F :=
  { s with
    coordinator := s.coordinator.handOut position t now
    lastHandedOut := Function.update s.lastHandedOut ⟨s.phase.jobType, taskId⟩ (some now) }

/-- The task is reported. -/
def reporting (s : Schedule F) (name : TaskName) : Schedule F :=
  { s with
    coordinator := s.coordinator.report name.jobType name.taskId
    reported := Function.update s.reported name true }

theorem Tracked.step_heartBeat (h : s.Tracked files nReduce) {now : ℕ → ℤ}
    (hstep : s.step (.heartBeat now) = some s') :
    s' = s ∨ ∃ taskId t, s.Due now taskId ∧
      s.coordinator.tasks[(TaskName.mk s.phase.jobType taskId).position files.length]? = some t ∧
      s' = s.handing ((TaskName.mk s.phase.jobType taskId).position files.length) taskId t
        (now taskId) := by
  simp only [step, Option.some.injEq] at hstep
  rcases h.heartBeat_cases now with ⟨-, hres⟩ | ⟨-, taskId, t, hdue, ht, hres⟩ | ⟨-, -, hres⟩
  · rw [hres] at hstep
    exact Or.inl hstep.symm
  · rw [hres] at hstep
    exact Or.inr ⟨taskId, t, hdue, ht, hstep.symm⟩
  · rw [hres] at hstep
    exact Or.inl hstep.symm

theorem step_report (hstep : s.step (.report name) = some s') :
    s.lastHandedOut name ≠ none ∧ s' = s.reporting name := by
  simp only [step] at hstep
  split_ifs at hstep with hsome
  refine ⟨fun hnone => ?_, (Option.some.inj hstep).symm⟩
  simp [hnone] at hsome

theorem Sound.handing (h : s.Sound files nReduce) {now : ℕ → ℤ} {taskId : ℕ} {t : Task F}
    (hdue : s.Due now taskId)
    (ht : s.coordinator.tasks[(TaskName.mk s.phase.jobType taskId).position files.length]? = some t) :
    (s.handing ((TaskName.mk s.phase.jobType taskId).position files.length) taskId t
      (now taskId)).Sound files nReduce := by
  have hname := hdue.1
  rw [h.wellFormed.nMap_eq, h.wellFormed.nReduce_eq] at hname
  have havailable := (h.due_iff hname ht).mp hdue
  have hunfinished : s.reported ⟨s.phase.jobType, taskId⟩ = false := by
    rw [← Bool.not_eq_true, ← h.finished_iff hname]
    exact hdue.2.1
  refine ⟨⟨(h.wellFormed.handOut ht havailable).1, ?_, ?_⟩, ?_⟩
  · intro name hne
    by_cases heq : name = ⟨s.phase.jobType, taskId⟩
    · exact heq ▸ hname
    · exact h.known name (by simpa [Schedule.handing, heq] using hne)
  · intro name hname' t' ht'
    by_cases heq : name = ⟨s.phase.jobType, taskId⟩
    · subst heq
      have hlt := (List.getElem?_eq_some_iff.mp ht).1
      simp only [Schedule.handing, Coordinator.handOut, List.getElem?_set_self hlt,
        Option.some.injEq] at ht'
      subst ht'
      simp [Tracks, Schedule.handing, hunfinished]
    · have hpos := fun hpos => heq (hname'.eq_of_position hname hpos)
      simp only [Schedule.handing, Coordinator.handOut, List.getElem?_set_ne (Ne.symm hpos)] at ht'
      exact (h.tracks name hname' t' ht').congr (Function.update_of_ne heq _ _) rfl
  · have hin := h.inPhase
    unfold InPhase at hin ⊢
    have hphase : (s.handing ((TaskName.mk s.phase.jobType taskId).position files.length) taskId t
        (now taskId)).phase = s.phase := rfl
    rw [hphase]
    cases hp : s.phase with
    | map =>
      rw [hp] at hin
      refine ⟨fun r => ?_, hin.2⟩
      rw [Schedule.handing, hp]
      simpa [SchedulePhase.jobType] using hin.1 r
    | reduce =>
      rw [hp] at hin
      exact hin
    | done =>
      rw [hp] at hin
      exact hin

/-- What has been reported stays so. -/
theorem reported_reporting {name' : TaskName} (h : s.reported name') :
    (s.reporting name).reported name' := by
  by_cases heq : name' = name
  · simp [Schedule.reporting, heq]
  · simpa [Schedule.reporting, heq] using h

theorem Tracked.reporting (h : s.Tracked files nReduce) (hhanded : s.lastHandedOut name ≠ none) :
    (s.reporting name).Tracked files nReduce := by
  have hname := h.known name hhanded
  have hreport := h.wellFormed.report name.jobType name.taskId hname.position_lt
  refine ⟨hreport.wellFormed, h.known, ?_⟩
  intro name' hname' t' ht'
  have htasks : (s.reporting name).coordinator.tasks =
      s.coordinator.tasks.modify (name.position files.length)
        fun t => { t with status := .finished } := by
    rw [Schedule.reporting, Coordinator.report_eq, h.wellFormed.nMap_eq]
    rfl
  rw [htasks, List.getElem?_modify] at ht'
  obtain ⟨t, ht, rfl⟩ := Option.map_eq_some_iff.mp ht'
  by_cases heq : name' = name
  · subst heq
    obtain ⟨time, htime⟩ := Option.ne_none_iff_exists'.mp hhanded
    simp [Tracks, Schedule.reporting, htime]
  · have hpos := fun hpos => heq (hname'.eq_of_position hname hpos)
    rw [if_neg (Ne.symm hpos)]
    exact (h.tracks name' hname' t ht).congr rfl (Function.update_of_ne heq _ _)

/-- The checks at the end of a report see what has been reported. -/
theorem Tracked.phase_reporting (h : s.Tracked files nReduce) (hhanded : s.lastHandedOut name ≠ none) :
    (s.reporting name).phase = s.phase ∧
        (∃ taskId, (TaskName.mk s.phase.jobType taskId).IsTask files.length nReduce ∧
          (s.reporting name).reported ⟨s.phase.jobType, taskId⟩ = false) ∨
      (s.reporting name).phase = s.phase.next ∧
        ∀ taskId, (TaskName.mk s.phase.jobType taskId).IsTask files.length nReduce →
          (s.reporting name).reported ⟨s.phase.jobType, taskId⟩ := by
  have hall := (h.reporting hhanded).allFinished_iff s.phase
  have hphase : (s.reporting name).phase =
      if (s.reporting name).coordinator.allFinished (s.phase.first files.length)
          (s.phase.count files.length nReduce) then s.phase.next else s.phase := by
    rw [Schedule.phase, Schedule.reporting, Coordinator.report_eq, h.wellFormed.nMap_eq,
      h.wellFormed.nReduce_eq]
    rfl
  rw [hphase]
  split_ifs with hfinished
  · exact Or.inr ⟨rfl, hall.mp hfinished⟩
  · refine Or.inl ⟨rfl, ?_⟩
    rw [hall] at hfinished
    push Not at hfinished
    obtain ⟨taskId, hname, hnot⟩ := hfinished
    exact ⟨taskId, hname, eq_false_of_ne_true hnot⟩

theorem Sound.reporting (h : s.Sound files nReduce) (hreduce : 0 < nReduce)
    (hhanded : s.lastHandedOut name ≠ none) : (s.reporting name).Sound files nReduce := by
  refine ⟨h.toTracked.reporting hhanded, ?_⟩
  have hin := h.inPhase
  unfold InPhase at hin ⊢
  rcases h.phase_reporting hhanded with ⟨hphase, taskId, hname, hnot⟩ | ⟨hphase, hall⟩
  · rw [hphase]
    cases hp : s.phase with
    | map =>
      rw [hp] at hin hname hnot
      exact ⟨hin.1, taskId, TaskName.isTask_map.mp hname, hnot⟩
    | reduce =>
      rw [hp] at hin hname hnot
      exact ⟨fun m hm => reported_reporting (hin.1 m hm), taskId, TaskName.isTask_reduce.mp hname, hnot⟩
    | done =>
      rw [hp] at hin
      exact fun name' hname' => reported_reporting (hin name' hname')
  · rw [hphase]
    cases hp : s.phase with
    | map =>
      rw [hp] at hin hall
      refine ⟨fun m hm => hall m (TaskName.isTask_map.mpr hm), 0, hreduce, ?_⟩
      -- nothing of the reduce phase has been handed out, so the report is of a map task
      have hne : (⟨.reduceJob, 0⟩ : TaskName) ≠ name := by
        rintro rfl
        exact hhanded (hin.1 0)
      have hnot := h.not_reported (TaskName.isTask_reduce.mpr hreduce) (hin.1 0)
      simpa [Schedule.reporting, hne] using hnot
    | reduce =>
      rw [hp] at hin hall
      rintro ⟨jobType, taskId⟩ (⟨rfl, hlt⟩ | ⟨rfl, hlt⟩)
      · exact reported_reporting (hin.1 taskId hlt)
      · exact hall taskId (TaskName.isTask_reduce.mpr hlt)
    | done =>
      rw [hp] at hin
      exact fun name' hname' => reported_reporting (hin name' hname')

theorem Sound.step (h : s.Sound files nReduce) (hreduce : 0 < nReduce) {event : SchedulerEvent}
    (hstep : s.step event = some s') : s'.Sound files nReduce := by
  cases event with
  | heartBeat now =>
    rcases h.step_heartBeat hstep with rfl | ⟨taskId, t, hdue, ht, rfl⟩
    · exact h
    · exact h.handing hdue ht
  | report name =>
    obtain ⟨hhanded, rfl⟩ := step_report hstep
    exact h.reporting hreduce hhanded

theorem sound_of_reaches {now : ℤ} (hmap : 0 < files.length) (hreduce : 0 < nReduce)
    (hs : Reaches step anyStep (make files nReduce now) s) : s.Sound files nReduce :=
  hs.invariant (sound_make files nReduce now hmap) fun _ _ _ h _ hstep => h.step hreduce hstep

/-- A finished task stays finished. -/
theorem Sound.finished_of_step (h : s.Sound files nReduce) (hreduce : 0 < nReduce)
    {event : SchedulerEvent} (hstep : s.step event = some s')
    (hname : name.IsTask files.length nReduce) (hfinished : s.Finished name) : s'.Finished name := by
  rw [h.finished_iff hname] at hfinished
  rw [(h.step hreduce hstep).finished_iff hname]
  cases event with
  | heartBeat now =>
    rcases h.step_heartBeat hstep with rfl | ⟨taskId, t, hdue, ht, rfl⟩
    · exact hfinished
    · exact hfinished
  | report name' =>
    obtain ⟨-, rfl⟩ := step_report hstep
    exact reported_reporting hfinished

/-- A step keeps the phase, or it ends a phase whose tasks have all been reported. -/
theorem Sound.phase_of_step (h : s.Sound files nReduce) {event : SchedulerEvent}
    (hstep : s.step event = some s') :
    s'.phase = s.phase ∨
      s.phase = .map ∧ s'.phase = .reduce ∧ (∀ m < files.length, s'.reported ⟨.mapJob, m⟩) ∨
      s.phase = .reduce ∧ s'.phase = .done ∧ ∀ r < nReduce, s'.reported ⟨.reduceJob, r⟩ := by
  cases event with
  | heartBeat now =>
    left
    rcases h.step_heartBeat hstep with rfl | ⟨taskId, t, hdue, ht, rfl⟩
    · rfl
    · rfl
  | report name =>
    obtain ⟨hhanded, rfl⟩ := step_report hstep
    rcases h.phase_reporting hhanded with ⟨hphase, -⟩ | ⟨hphase, hall⟩
    · exact Or.inl hphase
    · cases hp : s.phase with
      | map =>
        rw [hp] at hphase hall
        exact Or.inr (Or.inl ⟨rfl, hphase, fun m hm => hall m (TaskName.isTask_map.mpr hm)⟩)
      | reduce =>
        rw [hp] at hphase hall
        exact Or.inr (Or.inr ⟨rfl, hphase, fun r hr => hall r (TaskName.isTask_reduce.mpr hr)⟩)
      | done =>
        rw [hp] at hphase
        exact Or.inl hphase

theorem InPhase.exists_not_reported {nMap : ℕ} (h : s.InPhase nMap nReduce) (hdone : s.phase ≠ .done) :
    ∃ taskId, (TaskName.mk s.phase.jobType taskId).IsTask nMap nReduce ∧
      s.reported ⟨s.phase.jobType, taskId⟩ = false := by
  unfold InPhase at h
  cases hp : s.phase with
  | map =>
    rw [hp] at h
    obtain ⟨-, m, hm, hnot⟩ := h
    exact ⟨m, TaskName.isTask_map.mpr hm, hnot⟩
  | reduce =>
    rw [hp] at h
    obtain ⟨-, r, hr, hnot⟩ := h
    exact ⟨r, TaskName.isTask_reduce.mpr hr, hnot⟩
  | done => exact absurd hp hdone

/-- Before the end, some task of the present phase is not finished. -/
theorem Sound.exists_unfinished (h : s.Sound files nReduce) (hdone : s.phase ≠ .done) :
    ∃ taskId, (TaskName.mk s.phase.jobType taskId).IsTask files.length nReduce ∧
      ¬s.Finished ⟨s.phase.jobType, taskId⟩ := by
  obtain ⟨taskId, hname, hnot⟩ := h.inPhase.exists_not_reported hdone
  refine ⟨taskId, hname, ?_⟩
  rw [h.finished_iff hname, hnot]
  exact Bool.false_ne_true

theorem Sound.answer (h : s.Sound files nReduce) (hdone : s.phase ≠ .done) (now : ℕ → ℤ) :
    ((s.coordinator.heartBeat now).2.jobType = .waitJob ↔ ¬∃ taskId, s.Due now taskId) ∧
      ((s.coordinator.heartBeat now).2.jobType ≠ .waitJob →
        (s.coordinator.heartBeat now).2.jobType = s.phase.jobType ∧
          s.Due now (s.coordinator.heartBeat now).2.taskId) := by
  have hnotWait : s.phase.jobType ≠ .waitJob := by
    cases s.phase <;> nofun
  rcases h.heartBeat_cases now with ⟨hd, -⟩ | ⟨-, taskId, t, hdue, -, hres⟩ | ⟨-, hnone, hres⟩
  · exact absurd hd hdone
  · rw [hres]
    refine ⟨iff_of_false hnotWait ?_, fun _ => ⟨rfl, hdue⟩⟩
    exact fun hnone => hnone ⟨taskId, hdue⟩
  · rw [hres]
    exact ⟨iff_of_true rfl hnone, fun hwait => absurd rfl hwait⟩

end Schedule

open Schedule

/-- In every state that heartbeats and reports lead to, whatever the clock shows: the next event
keeps the phase or ends one whose tasks have all been reported, and it keeps what is finished;
a heartbeat before the end is answered with a task that is due, and with `WaitJob` exactly if there
is none; after the end with `CompleteJob`; and before the end some task of the phase is not
finished. -/
theorem scheduler_sound (files : List F) (nReduce : ℕ) (hmap : 0 < files.length)
    (hreduce : 0 < nReduce) (start : ℤ) (s : Schedule F)
    (hs : Reaches Schedule.step anyStep (Schedule.make files nReduce start) s) :
    (∀ event s', s.step event = some s' →
      (s'.phase = s.phase ∨
        s.phase = .map ∧ s'.phase = .reduce ∧ (∀ m < files.length, s'.reported ⟨.mapJob, m⟩) ∨
        s.phase = .reduce ∧ s'.phase = .done ∧ ∀ r < nReduce, s'.reported ⟨.reduceJob, r⟩) ∧
      ∀ name : TaskName, name.IsTask files.length nReduce → s.Finished name → s'.Finished name) ∧
    (s.phase ≠ .done → ∀ now : ℕ → ℤ,
      ((s.coordinator.heartBeat now).2.jobType = .waitJob ↔ ¬∃ taskId, s.Due now taskId) ∧
        ((s.coordinator.heartBeat now).2.jobType ≠ .waitJob →
          (s.coordinator.heartBeat now).2.jobType = s.phase.jobType ∧
            s.Due now (s.coordinator.heartBeat now).2.taskId)) ∧
    (s.phase = .done → ∀ now : ℕ → ℤ,
      (s.coordinator.heartBeat now).2.jobType = .completeJob ∧
        (s.coordinator.heartBeat now).2.task = none) ∧
    (s.phase ≠ .done → ∃ taskId, (TaskName.mk s.phase.jobType taskId).IsTask files.length nReduce ∧
      ¬s.Finished ⟨s.phase.jobType, taskId⟩) := by
  have h := sound_of_reaches hmap hreduce hs
  refine ⟨fun event s' hstep => ⟨h.phase_of_step hstep, fun name hname => ?_⟩, h.answer, ?_,
    h.exists_unfinished⟩
  · exact h.finished_of_step hreduce hstep hname
  · intro hdone now
    rcases h.heartBeat_cases now with ⟨-, hres⟩ | ⟨hd, -⟩ | ⟨hd, -⟩
    · rw [hres]
      exact ⟨rfl, rfl⟩
    · exact absurd hdone hd
    · exact absurd hdone hd

/-- The map task is handed out, handed out again after 11 seconds, and then reported twice, once for
each worker. -/
theorem scheduler_sound_replaced_worker : ∃ s : Schedule ℕ,
    Reaches Schedule.step anyStep (Schedule.make [5] 1 0) s ∧ s.phase = .reduce ∧
      ∃ taskId, (TaskName.mk .reduceJob taskId).IsTask 1 1 ∧ ¬s.Finished ⟨.reduceJob, taskId⟩ := by
  obtain ⟨s, hs, hphase⟩ := exists_reaches Schedule.step anyStep (Schedule.make [5] 1 0)
    [.heartBeat fun _ => 0, .heartBeat fun _ => 11, .report ⟨.mapJob, 0⟩, .report ⟨.mapJob, 0⟩]
    (fun s => s.phase = .reduce) (by decide +kernel)
  obtain ⟨-, -, -, hunfinished⟩ := scheduler_sound [5] 1 (by decide) (by decide) 0 s hs
  rw [hphase] at hunfinished
  exact ⟨s, hs, hphase, hunfinished nofun⟩

end DistributedLabs.MapReduce
