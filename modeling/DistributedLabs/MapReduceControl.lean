import DistributedLabs.MapReduce

/-!
# Progress of a MapReduce job

Which files exist at each point of a task, whatever the other workers do. A worker
only adds published files and removes intermediate ones of a reduce task whose output
exists, so what a worker has found done stays done: an intermediate file was made once
and is there until it is removed, an output file is there for good.
-/

namespace DistributedLabs.MapReduce
open Directories TransitionRuns

namespace World
variable {n : ℕ} {F T K V J L : Type} {w w' : World n F K V J L} {i : Fin n}

@[simp] theorem setActivity_dir (a : Activity F K V J L) : (w.setActivity i a).dir = w.dir := rfl

@[simp] theorem setActivity_removed (a : Activity F K V J L) :
    (w.setActivity i a).removed = w.removed := rfl

@[simp] theorem setActivity_coordinator (a : Activity F K V J L) :
    (w.setActivity i a).coordinator = w.coordinator := rfl

@[simp] theorem setActivity_self (a : Activity F K V J L) :
    ((w.setActivity i a).workers i).activity = a := by simp [setActivity]

theorem setActivity_of_ne {j : Fin n} (h : j ≠ i) (a : Activity F K V J L) :
    (w.setActivity i a).workers j = w.workers j := by simp [setActivity, h]

def Has (w : World n F K V J L) (name : Name n) : Prop := ∃ file, w.dir.lookup name = some file

instance (name : Name n) : Decidable (w.Has name) :=
  decidable_of_iff ((w.dir.lookup name).isSome = true) Option.isSome_iff_exists

/-- The file was published, and it is there unless it was removed. -/
def Made (w : World n F K V J L) (m r : ℕ) : Prop := w.Has (.inter m r) ∨ (m, r) ∈ w.removed

theorem has_congr {name : Name n} (h : w'.dir.lookup name = w.dir.lookup name) :
    w'.Has name ↔ w.Has name := by rw [Has, Has, h]

theorem not_has {name : Name n} (h : w.dir.lookup name = none) : ¬w.Has name := by
  rintro ⟨file, hfile⟩
  rw [h] at hfile
  cases hfile

theorem mem_interFiles {m r : ℕ} : m ∈ interFiles w.dir r ↔ w.Has (.inter m r) := by
  rw [interFiles, (List.perm_insertionSort _ _).mem_iff, List.mem_filterMap]
  constructor
  · rintro ⟨name, hname, hmatch⟩
    cases name with
    | temp i id => cases hmatch
    | out r' => cases hmatch
    | inter m' r' =>
      obtain ⟨rfl, rfl⟩ : r' = r ∧ m' = m := by simpa [Name.matchReduce] using hmatch
      exact Dir.mem_keys_iff.mp hname
  · intro hhas
    exact ⟨.inter m r, Dir.mem_keys_iff.mpr hhas, by simp [Name.matchReduce]⟩

theorem nodup_interFiles (r : ℕ) : (interFiles w.dir r).Nodup := by
  rw [interFiles, (List.perm_insertionSort _ _).nodup_iff]
  refine w.dir.keys_nodup.filterMap ?_
  intro name name' m hm hm'
  have hinter : ∀ name : Name n, m ∈ name.matchReduce r → name = .inter m r := by
    intro name hname
    cases name with
    | temp i id => cases hname
    | out r' => cases hname
    | inter m' r' =>
      obtain ⟨rfl, rfl⟩ : r' = r ∧ m' = m := by simpa [Name.matchReduce] using hname
      rfl
  rw [hinter name hm, hinter name' hm']

/-- What a step of worker `i` leaves to the other workers. -/
structure Later (i : Fin n) (w w' : World n F K V J L) : Prop where
  workers : ∀ j ≠ i, w'.workers j = w.workers j
  temp : ∀ j ≠ i, ∀ id, w'.dir.lookup (.temp j id) = w.dir.lookup (.temp j id)
  made : ∀ m r, w.Made m r → w'.Made m r
  out : ∀ r, w.Has (.out r) → w'.Has (.out r)

/-- No file changes but the temporary files of worker `i`. -/
structure Silent (i : Fin n) (w w' : World n F K V J L) : Prop where
  workers : ∀ j ≠ i, w'.workers j = w.workers j
  lookup : ∀ name, (∀ id, name ≠ .temp i id) → w'.dir.lookup name = w.dir.lookup name
  removed : w'.removed = w.removed

/-- A temporary file of worker `i` gets the name that it was written for. -/
structure Published (i : Fin n) (id : ℕ) (name : Name n) (w w' : World n F K V J L) : Prop where
  workers : ∀ j ≠ i, w'.workers j = w.workers j
  target : ∃ file, w.dir.lookup (.temp i id) = some file ∧ w'.dir.lookup name = some file
  lookup : ∀ name', name' ≠ name → name' ≠ .temp i id →
    w'.dir.lookup name' = w.dir.lookup name'
  removed : w'.removed = w.removed
  coordinator : w'.coordinator = w.coordinator

/-- An intermediate file goes. -/
structure Removed (i : Fin n) (m r : ℕ) (w w' : World n F K V J L) : Prop where
  workers : ∀ j ≠ i, w'.workers j = w.workers j
  target : w'.dir.lookup (.inter m r) = none
  lookup : ∀ name, name ≠ .inter m r → w'.dir.lookup name = w.dir.lookup name
  removed : w'.removed = w.removed ++ [(m, r)]
  coordinator : w'.coordinator = w.coordinator

theorem Silent.inter (h : Silent i w w') (m r : ℕ) :
    w'.dir.lookup (.inter m r) = w.dir.lookup (.inter m r) := h.lookup _ nofun

theorem Silent.out (h : Silent i w w') (r : ℕ) :
    w'.dir.lookup (.out r) = w.dir.lookup (.out r) := h.lookup _ nofun

theorem Silent.made (h : Silent i w w') (m r : ℕ) : w'.Made m r ↔ w.Made m r := by
  rw [Made, Made, has_congr (h.inter m r), h.removed]

theorem Silent.later (h : Silent i w w') : Later i w w' where
  workers := h.workers
  temp := fun _ hj _ => h.lookup _ fun _ heq => hj (Name.temp.inj heq).1
  made := fun m r => (h.made m r).mpr
  out := fun r => (has_congr (h.out r)).mpr

theorem Published.has {id : ℕ} {name : Name n} (h : Published i id name w w') : w'.Has name :=
  h.target.imp fun _ => And.right

/-- Publishing a file removes none. -/
theorem Published.has_of_has {id : ℕ} {name name' : Name n} (h : Published i id name w w')
    (hname : name' ≠ .temp i id) (hhas : w.Has name') : w'.Has name' := by
  rcases eq_or_ne name' name with rfl | hne
  · exact h.has
  · exact (has_congr (h.lookup name' hne hname)).mpr hhas

theorem Published.later {id : ℕ} {name : Name n} (h : Published i id name w w')
    (hname : ∀ j id, name ≠ .temp j id) : Later i w w' where
  workers := h.workers
  temp := fun _ hj _ => h.lookup _ (hname _ _).symm fun heq => hj (Name.temp.inj heq).1
  made := fun _ _ hmade => hmade.imp (h.has_of_has nofun) (h.removed ▸ ·)
  out := fun _ => h.has_of_has nofun

theorem Removed.later {m r : ℕ} (h : Removed i m r w w') : Later i w w' where
  workers := h.workers
  temp := fun _ _ _ => h.lookup _ nofun
  made := by
    intro m' r' hmade
    rw [Made, h.removed, List.mem_append, List.mem_singleton]
    by_cases heq : (m', r') = (m, r)
    · exact .inr (.inr heq)
    · have hne : (Name.inter m' r' : Name n) ≠ .inter m r := fun hinter =>
        heq (Prod.ext (Name.inter.inj hinter).1 (Name.inter.inj hinter).2)
      exact hmade.imp (has_congr (h.lookup _ hne)).mpr .inl
  out := fun r' => (has_congr (h.lookup (.out r') nofun)).mpr

theorem silent_setActivity (a : Activity F K V J L) : Silent i w (w.setActivity i a) where
  workers := fun _ hj => setActivity_of_ne hj a
  lookup := fun _ _ => rfl
  removed := rfl

theorem silent_create (a : Activity F K V J L) (id : ℕ) :
    Silent i w { w.setActivity i a with dir := w.dir.create (.temp i id) } where
  workers := fun _ hj => setActivity_of_ne hj a
  lookup := fun name hname => by rw [Dir.lookup_create, if_neg (hname id)]
  removed := rfl

theorem lookup_append_of_ne {d : Dir (Name n) (J ⊕ L)} {name name' : Name n} (h : name ≠ name')
    (chunk : J ⊕ L) : (d.append name' chunk).lookup name = d.lookup name := by
  cases hfile : d.lookup name' with
  | none => rw [Dir.append, hfile]
  | some file => rw [Dir.lookup_append hfile, if_neg h]

theorem silent_append (a : Activity F K V J L) (id : ℕ) (chunk : J ⊕ L) :
    Silent i w { w.setActivity i a with dir := w.dir.append (.temp i id) chunk } where
  workers := fun _ hj => setActivity_of_ne hj a
  lookup := fun _ hname => lookup_append_of_ne (hname id) chunk
  removed := rfl

theorem silent_report (a : Activity F K V J L) (c : Coordinator F) :
    Silent i w { w.setActivity i a with coordinator := c } where
  workers := fun _ hj => setActivity_of_ne hj a
  lookup := fun _ _ => rfl
  removed := rfl

theorem silent_heartbeat (now : ℕ → ℤ) : Silent i w (w.heartbeat i now) where
  workers := fun j hj => by simp [World.heartbeat, hj]
  lookup := fun _ _ => rfl
  removed := rfl

theorem published_rename {id : ℕ} (h : w.Has (.temp i id)) (a : Activity F K V J L)
    (name : Name n) :
    Published i id name w { w.setActivity i a with dir := w.dir.rename (.temp i id) name } := by
  obtain ⟨file, hfile⟩ := h
  refine ⟨fun _ hj => setActivity_of_ne hj a, ⟨file, hfile, ?_⟩, fun name' hne htemp => ?_, rfl, rfl⟩
  · rw [Dir.lookup_rename hfile, if_pos rfl]
  · rw [Dir.lookup_rename hfile, if_neg hne, if_neg htemp]

theorem removed_remove (a : Activity F K V J L) (m r : ℕ) :
    Removed i m r w { w.setActivity i a with
      dir := w.dir.remove (.inter m r), removed := w.removed ++ [(m, r)] } where
  workers := fun _ hj => setActivity_of_ne hj a
  target := by rw [Dir.lookup_remove, if_pos rfl]
  lookup := fun _ hname => by rw [Dir.lookup_remove, if_neg hname]
  removed := rfl
  coordinator := rfl

/-- What a map worker has done, in terms of files. -/
def MapProgress (w : World n F K V J L) (i : Fin n) (m nReduce base : ℕ) : MapStage K V → Prop
  | .read => True
  | .create _ index => ∀ k < index, w.Has (.temp i (base + k))
  | .write _ => ∀ k < nReduce, w.Has (.temp i (base + k))
  | .stat index =>
    (∀ k < nReduce, index ≤ k → w.Has (.temp i (base + k))) ∧ ∀ r < nReduce, r < index → w.Made m r
  | .rename index => index < nReduce ∧
    (∀ k < nReduce, index ≤ k → w.Has (.temp i (base + k))) ∧ ∀ r < nReduce, r < index → w.Made m r
  | .report => ∀ r < nReduce, w.Made m r

/-- What a reduce worker has done, in terms of files. -/
def ReduceProgress (w : World n F K V J L) (i : Fin n) (r base : ℕ) : ReduceStage J L → Prop
  | .list | .openFiles _ _ | .create _ => True
  | .write _ | .stat | .rename => w.Has (.temp i base)
  | .listAgain | .remove _ | .report => w.Has (.out r)

def Progress (job : Job F T K V J L) (w : World n F K V J L) (i : Fin n) :
    Activity F K V J L → Prop
  | .idle | .exited => True
  | .map taskId task nReduce base stage =>
    (taskId < job.files.length ∧ task.id = taskId ∧ task.fileName = job.files[taskId]? ∧
      nReduce = job.nReduce) ∧ w.MapProgress i taskId nReduce base stage
  | .reduce r base stage =>
    (r < job.nReduce ∧ ∀ m < job.files.length, w.Made m r) ∧ w.ReduceProgress i r base stage

/-- What the coordinator knows. -/
structure Scheduled (job : Job F T K V J L) (w : World n F K V J L) : Prop where
  wellFormed : w.coordinator.WellFormed job.files job.nReduce
  mapped : ∀ m < job.files.length, w.coordinator.Finished m → ∀ r < job.nReduce, w.Made m r
  reducing : w.coordinator.phase ≠ .map → ∀ m < job.files.length, ∀ r < job.nReduce, w.Made m r
  reduced : ∀ r < job.nReduce, w.coordinator.Finished (job.files.length + r) → w.Has (.out r)
  done : w.coordinator.phase = .done →
    ∀ r < job.nReduce, w.coordinator.Finished (job.files.length + r)

structure Control (job : Job F T K V J L) (w : World n F K V J L) : Prop where
  inter : ∀ m r, w.Has (.inter m r) → m < job.files.length ∧ r < job.nReduce
  out : ∀ r, w.Has (.out r) → r < job.nReduce
  /-- nothing is removed before the output exists -/
  removed : ∀ m r, (m, r) ∈ w.removed → w.Has (.out r)
  scheduled : w.Scheduled job
  workers : ∀ i, w.Progress job i (w.workers i).activity

variable {job : Job F T K V J L}

theorem MapProgress.mono {j : Fin n} {m nReduce base : ℕ} {stage : MapStage K V}
    (h : w.MapProgress j m nReduce base stage) (hlater : Later i w w') (hj : j ≠ i) :
    w'.MapProgress j m nReduce base stage := by
  have htemp : ∀ {k}, w.Has (.temp j (base + k)) → w'.Has (.temp j (base + k)) :=
    fun {k} => (has_congr (hlater.temp j hj (base + k))).mpr
  cases stage with
  | read => trivial
  | create _ index => exact fun k hk => htemp (h k hk)
  | write _ => exact fun k hk => htemp (h k hk)
  | stat index =>
    exact ⟨fun k hk hle => htemp (h.1 k hk hle), fun r hr hlt => hlater.made m r (h.2 r hr hlt)⟩
  | rename index =>
    exact ⟨h.1, fun k hk hle => htemp (h.2.1 k hk hle),
      fun r hr hlt => hlater.made m r (h.2.2 r hr hlt)⟩
  | report => exact fun r hr => hlater.made m r (h r hr)

theorem ReduceProgress.mono {j : Fin n} {r base : ℕ} {stage : ReduceStage J L}
    (h : w.ReduceProgress j r base stage) (hlater : Later i w w') (hj : j ≠ i) :
    w'.ReduceProgress j r base stage := by
  cases stage with
  | list | openFiles _ _ | create _ => trivial
  | write _ | stat | rename => exact (has_congr (hlater.temp j hj base)).mpr h
  | listAgain | remove _ | report => exact hlater.out r h

/-- Whatever another worker does, what this one has done stays done. -/
theorem Progress.mono {j : Fin n} {a : Activity F K V J L} (h : w.Progress job j a)
    (hlater : Later i w w') (hj : j ≠ i) : w'.Progress job j a := by
  cases a with
  | idle | exited => trivial
  | map taskId task nReduce base stage => exact ⟨h.1, h.2.mono hlater hj⟩
  | reduce r base stage =>
    exact ⟨⟨h.1.1, fun m hm => hlater.made m r (h.1.2 m hm)⟩, h.2.mono hlater hj⟩

theorem Scheduled.mono (h : w.Scheduled job) (hlater : Later i w w')
    (hc : w'.coordinator = w.coordinator) : w'.Scheduled job where
  wellFormed := hc ▸ h.wellFormed
  mapped := fun m hm hf r hr => hlater.made m r (h.mapped m hm (hc ▸ hf) r hr)
  reducing := fun hp m hm r hr => hlater.made m r (h.reducing (hc ▸ hp) m hm r hr)
  reduced := fun r hr hf => hlater.out r (h.reduced r hr (hc ▸ hf))
  done := fun hp r hr => hc ▸ h.done (hc ▸ hp) r hr

theorem Scheduled.answered (h : w.Scheduled job) (hs : Silent i w w')
    {response : HeartbeatResponse F} (ha : Coordinator.Answered job.files job.nReduce
      w.coordinator w'.coordinator response) : w'.Scheduled job where
  wellFormed := ha.wellFormed
  mapped := fun m hm hf r hr => hs.later.made m r (h.mapped m hm ((ha.finished m).mp hf) r hr)
  reducing := fun hp m hm r hr => hs.later.made m r (h.reducing (ha.phase ▸ hp) m hm r hr)
  reduced := fun r hr hf => hs.later.out r (h.reduced r hr ((ha.finished _).mp hf))
  done := fun hp r hr => (ha.finished _).mpr (h.done (ha.phase ▸ hp) r hr)

/-- A report is right: the files of the task were made. -/
theorem Scheduled.report (h : w.Scheduled job) (hs : Silent i w w') {index : ℕ}
    (hc : Coordinator.Reported job.files job.nReduce index w.coordinator w'.coordinator)
    (hmap : index < job.files.length → ∀ r < job.nReduce, w.Made index r)
    (hreduce : ∀ r < job.nReduce, index = job.files.length + r → w.Has (.out r)) :
    w'.Scheduled job := by
  have hmapped : ∀ m < job.files.length, w'.coordinator.Finished m →
      ∀ r < job.nReduce, w'.Made m r := by
    intro m hm hf r hr
    refine hs.later.made m r ?_
    rcases (hc.finished m).mp hf with hf | rfl
    · exact h.mapped m hm hf r hr
    · exact hmap hm r hr
  refine ⟨hc.wellFormed, hmapped, fun hp m hm r hr => ?_, fun r hr hf => ?_, fun hp r hr => ?_⟩
  · rcases hc.phase with hsame | ⟨_, _, hall⟩ | ⟨hbefore, _, _⟩
    · exact hs.later.made m r (h.reducing (hsame ▸ hp) m hm r hr)
    · exact hmapped m hm (hall m hm) r hr
    · exact hs.later.made m r (h.reducing (by simp [hbefore]) m hm r hr)
  · refine hs.later.out r ?_
    rcases (hc.finished _).mp hf with hf | heq
    · exact h.reduced r hr hf
    · exact hreduce r hr heq.symm
  · rcases hc.phase with hsame | ⟨_, hafter, _⟩ | ⟨_, _, hall⟩
    · exact (hc.finished _).mpr (.inl (h.done (hsame ▸ hp) r hr))
    · simp [hafter] at hp
    · exact hall r hr

variable {a : Activity F K V J L}

theorem Control.workers_later (h : w.Control job) (hlater : Later i w w')
    (ha : (w'.workers i).activity = a) (hself : w'.Progress job i a) (j : Fin n) :
    w'.Progress job j (w'.workers j).activity := by
  rcases eq_or_ne j i with rfl | hj
  · rwa [ha]
  · rw [hlater.workers j hj]
    exact (h.workers j).mono hlater hj

theorem Control.silent (h : w.Control job) (hs : Silent i w w') (hscheduled : w'.Scheduled job)
    (ha : (w'.workers i).activity = a) (hself : w'.Progress job i a) : w'.Control job where
  inter := fun m r hhas => h.inter m r ((has_congr (hs.inter m r)).mp hhas)
  out := fun r hhas => h.out r ((has_congr (hs.out r)).mp hhas)
  removed := fun m r hmem => hs.later.out r (h.removed m r (hs.removed ▸ hmem))
  scheduled := hscheduled
  workers := h.workers_later hs.later ha hself

/-- A step within a task that only touches temporary files. -/
theorem Control.within (h : w.Control job) (hs : Silent i w w')
    (hc : w'.coordinator = w.coordinator)
    (ha : (w'.workers i).activity = a) (hself : w'.Progress job i a) : w'.Control job :=
  h.silent hs (h.scheduled.mono hs.later hc) ha hself

theorem Control.published {id m r : ℕ} (h : w.Control job) (hp : Published i id (.inter m r) w w')
    (hm : m < job.files.length) (hr : r < job.nReduce)
    (ha : (w'.workers i).activity = a) (hself : w'.Progress job i a) : w'.Control job := by
  have hlater := hp.later nofun
  refine ⟨fun m' r' hhas => ?_, fun r' hhas => ?_, fun m' r' hmem => ?_,
    h.scheduled.mono hlater hp.coordinator, h.workers_later hlater ha hself⟩
  · by_cases heq : (Name.inter m' r' : Name n) = .inter m r
    · obtain ⟨rfl, rfl⟩ := Name.inter.inj heq
      exact ⟨hm, hr⟩
    · exact h.inter m' r' ((has_congr (hp.lookup _ heq nofun)).mp hhas)
  · exact h.out r' ((has_congr (hp.lookup (.out r') nofun nofun)).mp hhas)
  · exact hlater.out r' (h.removed m' r' (hp.removed ▸ hmem))

theorem Control.publishedOut {id r : ℕ} (h : w.Control job) (hp : Published i id (.out r) w w')
    (hr : r < job.nReduce) (ha : (w'.workers i).activity = a) (hself : w'.Progress job i a) :
    w'.Control job := by
  have hlater := hp.later nofun
  refine ⟨fun m' r' hhas => ?_, fun r' hhas => ?_, fun m' r' hmem => ?_,
    h.scheduled.mono hlater hp.coordinator, h.workers_later hlater ha hself⟩
  · exact h.inter m' r' ((has_congr (hp.lookup (.inter m' r') nofun nofun)).mp hhas)
  · by_cases heq : (Name.out r' : Name n) = .out r
    · exact Name.out.inj heq ▸ hr
    · exact h.out r' ((has_congr (hp.lookup _ heq nofun)).mp hhas)
  · exact hlater.out r' (h.removed m' r' (hp.removed ▸ hmem))

theorem Control.removedFile {m r : ℕ} (h : w.Control job) (hrem : Removed i m r w w')
    (hout : w.Has (.out r)) (ha : (w'.workers i).activity = a) (hself : w'.Progress job i a) :
    w'.Control job := by
  refine ⟨fun m' r' hhas => ?_, fun r' hhas => ?_, fun m' r' hmem => ?_,
    h.scheduled.mono hrem.later hrem.coordinator, h.workers_later hrem.later ha hself⟩
  · by_cases heq : (Name.inter m' r' : Name n) = .inter m r
    · exact absurd (heq ▸ hhas) (not_has hrem.target)
    · exact h.inter m' r' ((has_congr (hrem.lookup _ heq)).mp hhas)
  · exact h.out r' ((has_congr (hrem.lookup (.out r') nofun)).mp hhas)
  · rw [hrem.removed, List.mem_append, List.mem_singleton, Prod.mk.injEq] at hmem
    refine hrem.later.out r' ?_
    rcases hmem with hmem | ⟨_, rfl⟩
    · exact h.removed m' r' hmem
    · exact hout

theorem has_create {name name' : Name n} (hdir : w'.dir = w.dir.create name)
    (h : w.Has name' ∨ name' = name) : w'.Has name' := by
  rw [Has, hdir, Dir.lookup_create]
  split_ifs with hname
  · exact ⟨[], rfl⟩
  · exact h.resolve_right hname

theorem has_append {name name' : Name n} {chunk : J ⊕ L}
    (hdir : w'.dir = w.dir.append name chunk) (h : w.Has name') : w'.Has name' := by
  rcases eq_or_ne name' name with rfl | hne
  · obtain ⟨file, hfile⟩ := h
    exact ⟨file ++ [chunk], by rw [hdir, Dir.lookup_append hfile, if_pos rfl]⟩
  · rwa [Has, hdir, lookup_append_of_ne hne]

variable [LinearOrder K]

/-- The steps that can be taken. -/
inductive Taken (job : Job F T K V J L) (w : World n F K V J L) :
    Action n K → World n F K V J L → Prop
  | heartbeat {i : Fin n} (now : ℕ → ℤ) (hact : (w.workers i).activity = .idle) :
    Taken job w (.heartbeat i now) (w.heartbeat i now)
  | read {i : Fin n} {taskId nReduce base : ℕ} {task : Task F} {filename : F} {order : List K}
    (hact : (w.workers i).activity = .map taskId task nReduce base .read)
    (hname : task.fileName = some filename)
    (horder : order.Perm
      (Job.keysOf (job.sortByKey (job.mapf filename (job.content filename))))) :
    Taken job w (.read i order) (w.setActivity i (.map taskId task nReduce base
      (.create (Job.entries (job.sortByKey (job.mapf filename (job.content filename))) order) 0)))
  | unreadable {i : Fin n} {taskId nReduce base : ℕ} {task : Task F} {order : List K}
    (hact : (w.workers i).activity = .map taskId task nReduce base .read)
    (hname : task.fileName = none) : Taken job w (.read i order) (w.setActivity i .exited)
  | map {i : Fin n} {taskId nReduce base : ℕ} {task : Task F} {stage : MapStage K V}
    {w' : World n F K V J L}
    (hact : (w.workers i).activity = .map taskId task nReduce base stage)
    (hrun : w.runMap job i taskId task nReduce base stage = some w') : Taken job w (.run i) w'
  | reduce {i : Fin n} {r base : ℕ} {stage : ReduceStage J L}
    (hact : (w.workers i).activity = .reduce r base stage) :
    Taken job w (.run i) (w.runReduce job i r base stage)
  | stop (i : Fin n) : Taken job w (.stop i) (w.setActivity i .exited)

theorem taken_of_step {action : Action n K} (h : w.step job action = some w') :
    Taken job w action w' := by
  cases action with
  | heartbeat i now =>
    rw [World.step] at h
    split at h
    · next hact => exact Option.some.inj h ▸ .heartbeat now hact
    · cases h
  | read i order =>
    rw [World.step] at h
    split at h
    · next hact =>
      rw [World.readInput] at h
      split at h
      · next hname => exact Option.some.inj h ▸ .unreadable hact hname
      · next filename hname =>
        dsimp only at h
        split_ifs at h with horder
        exact Option.some.inj h ▸ .read hact hname horder
    · cases h
  | run i =>
    rw [World.step] at h
    split at h
    · next hact => exact .map hact h
    · next hact => exact Option.some.inj h ▸ .reduce hact
    · cases h
  | stop i => exact Option.some.inj h ▸ .stop i

omit [LinearOrder K] in
theorem Control.runMap (h : w.Control job) {taskId nReduce base : ℕ} {task : Task F}
    {stage : MapStage K V} (hact : (w.workers i).activity = .map taskId task nReduce base stage)
    (hrun : w.runMap job i taskId task nReduce base stage = some w') : w'.Control job := by
  obtain ⟨hstatic, hp⟩ := hact ▸ h.workers i
  have ⟨htask, hid, _, hn⟩ := hstatic
  cases stage with
  | read => cases hrun
  | create entries index =>
    rw [World.runMap] at hrun
    split_ifs at hrun with hlt <;> obtain rfl := Option.some.inj hrun
    · refine h.within (silent_create _ _) rfl (setActivity_self _) ⟨hstatic, fun k hk => ?_⟩
      refine has_create rfl ?_
      rcases Nat.lt_succ_iff_lt_or_eq.mp hk with hk | rfl
      · exact .inl (hp k hk)
      · exact .inr rfl
    · refine h.within (silent_setActivity _) rfl (setActivity_self _) ⟨hstatic, fun k hk => ?_⟩
      exact hp k (Nat.lt_of_lt_of_le hk (Nat.le_of_not_lt hlt))
  | write entries =>
    cases entries with
    | nil =>
      obtain rfl := Option.some.inj hrun
      exact h.within (silent_setActivity _) rfl (setActivity_self _)
        ⟨hstatic, fun k hk _ => hp k hk, fun _ _ hlt => absurd hlt (Nat.not_lt_zero _)⟩
    | cons kv rest =>
      obtain rfl := Option.some.inj hrun
      exact h.within (silent_append _ _ _) rfl (setActivity_self _)
        ⟨hstatic, fun k hk => has_append rfl (hp k hk)⟩
  | stat index =>
    rw [World.runMap] at hrun
    split_ifs at hrun with hlt
    · split at hrun <;> obtain rfl := Option.some.inj hrun
      · exact h.within (silent_setActivity _) rfl (setActivity_self _) ⟨hstatic, hlt, hp⟩
      · next file hfile =>
        refine h.within (silent_setActivity _) rfl (setActivity_self _)
          ⟨hstatic, fun k hk hle => hp.1 k hk (Nat.le_of_succ_le hle), fun r hr hr' => ?_⟩
        rcases Nat.lt_succ_iff_lt_or_eq.mp hr' with hr' | rfl
        · exact hp.2 r hr hr'
        · exact .inl ⟨file, hid ▸ hfile⟩
    · obtain rfl := Option.some.inj hrun
      exact h.within (silent_setActivity _) rfl (setActivity_self _)
        ⟨hstatic, fun r hr => hp.2 r hr (Nat.lt_of_lt_of_le hr (Nat.le_of_not_lt hlt))⟩
  | rename index =>
    obtain ⟨hlt, htemp, hmade⟩ := hp
    obtain rfl := Option.some.inj hrun
    have hpub := published_rename (htemp index hlt le_rfl)
      (.map taskId task nReduce base (.stat (index + 1)) : Activity F K V J L) (.inter task.id index)
    refine h.published hpub (hid.symm ▸ htask) (hn ▸ hlt) (setActivity_self _)
      ⟨hstatic, fun k hk hle => ?_, fun r hr hr' => ?_⟩
    · have hne : (Name.temp i (base + k) : Name n) ≠ .temp i (base + index) := by
        rw [Ne, Name.temp.injEq]
        omega
      exact hpub.has_of_has hne (htemp k hk (Nat.le_of_succ_le hle))
    · rcases Nat.lt_succ_iff_lt_or_eq.mp hr' with hr' | rfl
      · exact (hpub.later nofun).made taskId r (hmade r hr hr')
      · exact .inl (hid ▸ hpub.has)
  | report =>
    obtain rfl := Option.some.inj hrun
    have hindex : taskId < job.files.length + job.nReduce := Nat.lt_add_right _ htask
    refine h.silent (silent_report _ _) (h.scheduled.report (silent_report _ _)
      (h.scheduled.wellFormed.report .mapJob taskId hindex) ?_ ?_) (setActivity_self _) trivial
    · exact fun _ r hr => hp r (hn ▸ hr)
    · intro r _ heq
      change taskId = job.files.length + r at heq
      omega

theorem Control.runReduce (h : w.Control job) {r base : ℕ} {stage : ReduceStage J L}
    (hact : (w.workers i).activity = .reduce r base stage) :
    (w.runReduce job i r base stage).Control job := by
  obtain ⟨hstatic, hp⟩ := hact ▸ h.workers i
  have ⟨hr, hmade⟩ := hstatic
  cases stage with
  | list => exact h.within (silent_setActivity _) rfl (setActivity_self _) ⟨hstatic, trivial⟩
  | openFiles rest files =>
    cases rest with
    | nil => exact h.within (silent_setActivity _) rfl (setActivity_self _) ⟨hstatic, trivial⟩
    | cons m rest =>
      rw [World.runReduce]
      split
      · exact h.within (silent_setActivity _) rfl (setActivity_self _) trivial
      · exact h.within (silent_setActivity _) rfl (setActivity_self _) ⟨hstatic, trivial⟩
  | create files =>
    refine h.within (silent_create _ _) rfl (setActivity_self _) ⟨⟨hr, fun m hm => ?_⟩, ?_⟩
    · exact (silent_create _ _).later.made m r (hmade m hm)
    · exact has_create rfl (.inr rfl)
  | write lines =>
    cases lines with
    | nil => exact h.within (silent_setActivity _) rfl (setActivity_self _) ⟨hstatic, hp⟩
    | cons line rest =>
      refine h.within (silent_append _ _ _) rfl (setActivity_self _) ⟨⟨hr, fun m hm => ?_⟩, ?_⟩
      · exact (silent_append _ _ _).later.made m r (hmade m hm)
      · exact has_append rfl hp
  | stat =>
    rw [World.runReduce]
    split
    · exact h.within (silent_setActivity _) rfl (setActivity_self _) ⟨hstatic, hp⟩
    · next file hfile =>
      exact h.within (silent_setActivity _) rfl (setActivity_self _) ⟨hstatic, file, hfile⟩
  | rename =>
    have hpub := published_rename hp (.reduce r base .listAgain : Activity F K V J L) (.out r)
    refine h.publishedOut hpub hr (setActivity_self _) ⟨⟨hr, fun m hm => ?_⟩, hpub.has⟩
    exact (hpub.later nofun).made m r (hmade m hm)
  | listAgain => exact h.within (silent_setActivity _) rfl (setActivity_self _) ⟨hstatic, hp⟩
  | remove rest =>
    cases rest with
    | nil => exact h.within (silent_setActivity _) rfl (setActivity_self _) ⟨hstatic, hp⟩
    | cons m rest =>
      rw [World.runReduce]
      split
      · exact h.within (silent_setActivity _) rfl (setActivity_self _) ⟨hstatic, hp⟩
      · have hrem := removed_remove (w := w) (i := i)
          (.reduce r base (.remove rest) : Activity F K V J L) m r
        refine h.removedFile hrem hp (setActivity_self _) ⟨⟨hr, fun m' hm => ?_⟩, ?_⟩
        · exact hrem.later.made m' r (hmade m' hm)
        · exact hrem.later.out r hp
  | report =>
    have hindex : r + job.files.length < job.files.length + job.nReduce := by omega
    refine h.silent (silent_report _ _) (h.scheduled.report (silent_report _ _)
      (h.scheduled.wellFormed.report .reduceJob r hindex) ?_ ?_) (setActivity_self _) trivial
    · exact fun hlt => absurd hlt (Nat.not_lt.mpr (Nat.le_add_left _ r))
    · intro r' _ heq
      have heq : r' = r := by
        change r + job.files.length = job.files.length + r' at heq
        omega
      exact heq ▸ hp

omit [LinearOrder K] in
theorem Control.heartbeat (h : w.Control job) (now : ℕ → ℤ) : (w.heartbeat i now).Control job := by
  have ha := h.scheduled.wellFormed.heartBeat now
  have hs := silent_heartbeat (w := w) (i := i) now
  refine h.silent hs (h.scheduled.answered hs ha) rfl ?_
  simp only [World.heartbeat, Function.update_self]
  split
  next task hjob htask =>
    obtain ⟨task', htask', hlt, hid, hfile⟩ := ha.map hjob
    obtain rfl := Option.some.inj (htask.symm.trans htask')
    exact ⟨⟨hlt, hid, hfile, ha.nReduce_eq⟩, trivial⟩
  next => trivial
  next hjob =>
    obtain ⟨hphase, hlt⟩ := ha.reduce hjob
    refine ⟨⟨hlt, fun m hm => hs.later.made m _ ?_⟩, trivial⟩
    exact h.scheduled.reducing (by simp [hphase]) m hm _ hlt
  next => trivial
  next => trivial

theorem Control.step {action : Action n K} (h : w.Control job)
    (hstep : w.step job action = some w') : w'.Control job := by
  cases taken_of_step hstep with
  | heartbeat now _ => exact h.heartbeat now
  | read hact _ _ =>
    obtain ⟨hstatic, _⟩ := hact ▸ h.workers _
    exact h.within (silent_setActivity _) rfl (setActivity_self _) ⟨hstatic, nofun⟩
  | unreadable _ _ => exact h.within (silent_setActivity _) rfl (setActivity_self _) trivial
  | map hact hrun => exact h.runMap hact hrun
  | reduce hact => exact h.runReduce hact
  | stop i => exact h.within (silent_setActivity _) rfl (setActivity_self _) trivial

omit [LinearOrder K] in
theorem control_init (job : Job F T K V J L) (now : ℤ) :
    (init job now : World n F K V J L).Control job := by
  have hnone : ∀ name, ¬(init job now : World n F K V J L).Has name := by
    rintro name ⟨file, hfile⟩
    simp [init] at hfile
  have hfinished := Coordinator.not_finished_make job.files job.nReduce now
  refine ⟨fun m r hhas => absurd hhas (hnone _), fun r hhas => absurd hhas (hnone _),
    fun m r hmem => absurd hmem List.not_mem_nil, ?_, fun i => trivial⟩
  exact ⟨Coordinator.make_wellFormed _ _ _, fun m _ hf => absurd hf (hfinished m),
    fun hp => absurd rfl hp, fun r _ hf => absurd hf (hfinished _), nofun⟩

theorem control_of_reaches {guard : World n F K V J L → Action n K → Prop} {now : ℤ}
    (h : Reaches (step job) guard (init job now) w) : w.Control job :=
  h.invariant (control_init job now) fun _ _ _ hc _ hstep => hc.step hstep

end World
end DistributedLabs.MapReduce
