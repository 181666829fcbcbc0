import DistributedLabs.MapReduceControl
import Mathlib.Tactic.Choose

/-!
# MapReduce and the sequential run

What the files of a job contain. Every intermediate file has the pairs of its map
task for its reduce task, and every output file the lines of its reduce task, in some
order, whoever published it. A reduce worker may list the directory while another one
removes files from it, but then the output exists and the worker will not publish
what it has read. So when the coordinator is done, the outputs are those of
`mrsequential`.
-/

namespace DistributedLabs.MapReduce
open Directories TransitionRuns

section Files
variable {F T K V J L : Type} [LinearOrder K] (job : Job F T K V J L)

/-- The content of an intermediate file. -/
def IsPartition (m r : ℕ) (file : List (J ⊕ L)) : Prop :=
  ∃ kvs : List (KeyValue K V), kvs.Perm (job.partition m r) ∧
    file = kvs.map fun kv => .inl (job.encode kv)

/-- The content of an output file. -/
def IsOutput (r : ℕ) (file : List (J ⊕ L)) : Prop :=
  ∃ lines : List L, lines.Perm (job.expected r) ∧ file = lines.map .inr

/-- The pairs of all map tasks for a reduce task. -/
def pairsFor (r : ℕ) : List (KeyValue K V) :=
  job.intermediate.filter fun kv => job.reduceId kv.key = r

variable {job}

omit [LinearOrder K] in
theorem decodeFile_map_encode {kvs : List (KeyValue K V)}
    (h : ∀ kv ∈ kvs, job.decode (job.encode kv) = some kv) :
    decodeFile job (kvs.map fun kv => (.inl (job.encode kv) : J ⊕ L)) = kvs := by
  induction kvs with
  | nil => rfl
  | cons kv rest ih =>
    rw [List.map_cons, decodeFile, h kv List.mem_cons_self]
    exact congrArg (kv :: ·) (ih fun kv' hkv' => h kv' (List.mem_cons_of_mem kv hkv'))

theorem IsPartition.decodeFile_perm (hlawful : job.Lawful) {m r : ℕ} {file : List (J ⊕ L)}
    (h : IsPartition job m r file) : (decodeFile job file).Perm (job.partition m r) := by
  obtain ⟨kvs, hperm, rfl⟩ := h
  rw [decodeFile_map_encode fun kv hkv => ?_]
  · exact hperm
  · exact hlawful.decode_encode m kv (List.mem_filter.mp (hperm.mem_iff.mp hkv)).1

end Files

namespace World
variable {n : ℕ} {F T K V J L : Type} [LinearOrder K] {job : Job F T K V J L}
  {w w' : World n F K V J L} {i : Fin n}

/-- What the temporary files of a map worker contain. Of the pairs for reduce task `k`, those
that are not in the file yet are still to be written. -/
def MapContents (job : Job F T K V J L) (w : World n F K V J L) (i : Fin n) (m base : ℕ) :
    MapStage K V → Prop
  | .read | .report => True
  | .create entries index => entries.Perm (job.emitted m) ∧
    ∀ k < index, w.dir.lookup (.temp i (base + k)) = some []
  | .write rest => ∀ k < job.nReduce, ∃ written : List (KeyValue K V),
    (written ++ rest.filter fun kv => job.reduceId kv.key = k).Perm (job.partition m k) ∧
      w.dir.lookup (.temp i (base + k)) = some (written.map fun kv => .inl (job.encode kv))
  | .stat index | .rename index => ∀ k < job.nReduce, index ≤ k →
    ∃ file, w.dir.lookup (.temp i (base + k)) = some file ∧ IsPartition job m k file

/-- What a reduce worker has read or written. Once the output exists nothing is known, since
files may have been missing; but then the worker will not publish. -/
def ReduceContents (job : Job F T K V J L) (w : World n F K V J L) (i : Fin n) (r base : ℕ) :
    ReduceStage J L → Prop
  | .list | .listAgain | .remove _ | .report => True
  | .openFiles rest files => ¬w.Has (.out r) →
    (files.flatMap (decodeFile job) ++ rest.flatMap fun m => job.partition m r).Perm
      (pairsFor job r)
  | .create files => ¬w.Has (.out r) → (files.flatMap (decodeFile job)).Perm (pairsFor job r)
  | .write rest => ¬w.Has (.out r) → ∃ written : List L,
    (written ++ rest).Perm (job.expected r) ∧
      w.dir.lookup (.temp i base) = some (written.map .inr)
  | .stat => ¬w.Has (.out r) →
    ∃ file, w.dir.lookup (.temp i base) = some file ∧ IsOutput job r file
  | .rename => ∃ file, w.dir.lookup (.temp i base) = some file ∧ IsOutput job r file

def ActivityContents (job : Job F T K V J L) (w : World n F K V J L) (i : Fin n) :
    Activity F K V J L → Prop
  | .idle | .exited => True
  | .map taskId _ _ base stage => w.MapContents job i taskId base stage
  | .reduce r base stage => w.ReduceContents job i r base stage

structure Contents (job : Job F T K V J L) (w : World n F K V J L) : Prop where
  inter : ∀ m r file, w.dir.lookup (.inter m r) = some file → IsPartition job m r file
  out : ∀ r file, w.dir.lookup (.out r) = some file → IsOutput job r file
  workers : ∀ i, w.ActivityContents job i (w.workers i).activity

omit [LinearOrder K] in
theorem MapContents.mono {j : Fin n} {m base : ℕ} {stage : MapStage K V}
    (h : w.MapContents job j m base stage) (hlater : Later i w w') (hj : j ≠ i) :
    w'.MapContents job j m base stage := by
  have htemp := hlater.temp j hj
  cases stage with
  | read | report => trivial
  | create entries index => exact ⟨h.1, fun k hk => (htemp _).trans (h.2 k hk)⟩
  | write rest =>
    intro k hk
    obtain ⟨written, hperm, hfile⟩ := h k hk
    exact ⟨written, hperm, (htemp _).trans hfile⟩
  | stat index | rename index =>
    intro k hk hle
    obtain ⟨file, hfile, hpart⟩ := h k hk hle
    exact ⟨file, (htemp _).trans hfile, hpart⟩

theorem ReduceContents.mono {j : Fin n} {r base : ℕ} {stage : ReduceStage J L}
    (h : w.ReduceContents job j r base stage) (hlater : Later i w w') (hj : j ≠ i) :
    w'.ReduceContents job j r base stage := by
  have htemp := hlater.temp j hj base
  have hout : ¬w'.Has (.out r) → ¬w.Has (.out r) := mt (hlater.out r)
  cases stage with
  | list | listAgain | remove _ | report => trivial
  | openFiles rest files => exact fun hnot => h (hout hnot)
  | create files => exact fun hnot => h (hout hnot)
  | write rest =>
    intro hnot
    obtain ⟨written, hperm, hfile⟩ := h (hout hnot)
    exact ⟨written, hperm, htemp.trans hfile⟩
  | stat =>
    intro hnot
    obtain ⟨file, hfile, houtput⟩ := h (hout hnot)
    exact ⟨file, htemp.trans hfile, houtput⟩
  | rename =>
    obtain ⟨file, hfile, houtput⟩ := h
    exact ⟨file, htemp.trans hfile, houtput⟩

variable {a : Activity F K V J L}

theorem Contents.mapContents (h : w.Contents job) {taskId nReduce base : ℕ} {task : Task F}
    {stage : MapStage K V} (hact : (w.workers i).activity = .map taskId task nReduce base stage) :
    w.MapContents job i taskId base stage := by
  have hworker := h.workers i
  rw [hact] at hworker
  exact hworker

theorem Contents.reduceContents (h : w.Contents job) {r base : ℕ} {stage : ReduceStage J L}
    (hact : (w.workers i).activity = .reduce r base stage) :
    w.ReduceContents job i r base stage := by
  have hworker := h.workers i
  rw [hact] at hworker
  exact hworker

theorem Contents.workers_later (h : w.Contents job) (hlater : Later i w w')
    (ha : (w'.workers i).activity = a) (hself : w'.ActivityContents job i a) (j : Fin n) :
    w'.ActivityContents job j (w'.workers j).activity := by
  rcases eq_or_ne j i with rfl | hj
  · rwa [ha]
  · rw [hlater.workers j hj]
    cases hact : (w.workers j).activity with
    | idle | exited => trivial
    | map taskId task nReduce base stage => exact (h.mapContents hact).mono hlater hj
    | reduce r base stage => exact (h.reduceContents hact).mono hlater hj

theorem Contents.silent (h : w.Contents job) (hs : Silent i w w')
    (ha : (w'.workers i).activity = a) (hself : w'.ActivityContents job i a) :
    w'.Contents job where
  inter := fun m r file hfile => h.inter m r file ((hs.inter m r).symm.trans hfile)
  out := fun r file hfile => h.out r file ((hs.out r).symm.trans hfile)
  workers := h.workers_later hs.later ha hself

theorem Contents.published {id m r : ℕ} (h : w.Contents job)
    (hp : Published i id (.inter m r) w w')
    (hpart : ∀ file, w.dir.lookup (.temp i id) = some file → IsPartition job m r file)
    (ha : (w'.workers i).activity = a) (hself : w'.ActivityContents job i a) :
    w'.Contents job := by
  refine ⟨fun m' r' file hfile => ?_, fun r' file hfile => ?_,
    h.workers_later (hp.later nofun) ha hself⟩
  · by_cases heq : (Name.inter m' r' : Name n) = .inter m r
    · obtain ⟨rfl, rfl⟩ := Name.inter.inj heq
      obtain ⟨file', htemp, htarget⟩ := hp.target
      exact hpart file (htemp.trans (htarget.symm.trans hfile))
    · exact h.inter m' r' file ((hp.lookup _ heq nofun).symm.trans hfile)
  · exact h.out r' file ((hp.lookup (.out r') nofun nofun).symm.trans hfile)

theorem Contents.publishedOut {id r : ℕ} (h : w.Contents job) (hp : Published i id (.out r) w w')
    (houtput : ∀ file, w.dir.lookup (.temp i id) = some file → IsOutput job r file)
    (ha : (w'.workers i).activity = a) (hself : w'.ActivityContents job i a) :
    w'.Contents job := by
  refine ⟨fun m' r' file hfile => ?_, fun r' file hfile => ?_,
    h.workers_later (hp.later nofun) ha hself⟩
  · exact h.inter m' r' file ((hp.lookup (.inter m' r') nofun nofun).symm.trans hfile)
  · by_cases heq : (Name.out r' : Name n) = .out r
    · obtain rfl := Name.out.inj heq
      obtain ⟨file', htemp, htarget⟩ := hp.target
      exact houtput file (htemp.trans (htarget.symm.trans hfile))
    · exact h.out r' file ((hp.lookup _ heq nofun).symm.trans hfile)

theorem Contents.removedFile {m r : ℕ} (h : w.Contents job) (hrem : Removed i m r w w')
    (ha : (w'.workers i).activity = a) (hself : w'.ActivityContents job i a) :
    w'.Contents job := by
  refine ⟨fun m' r' file hfile => ?_, fun r' file hfile => ?_,
    h.workers_later hrem.later ha hself⟩
  · by_cases heq : (Name.inter m' r' : Name n) = .inter m r
    · rw [heq, hrem.target] at hfile
      cases hfile
    · exact h.inter m' r' file ((hrem.lookup _ heq).symm.trans hfile)
  · exact h.out r' file ((hrem.lookup (.out r') nofun).symm.trans hfile)

theorem Contents.read (h : w.Contents job) (hc : w.Control job) (hlawful : job.Lawful)
    {taskId nReduce base : ℕ} {task : Task F} {filename : F} {order : List K}
    (hact : (w.workers i).activity = .map taskId task nReduce base .read)
    (hname : task.fileName = some filename)
    (horder : order.Perm
      (Job.keysOf (job.sortByKey (job.mapf filename (job.content filename))))) :
    (w.setActivity i (.map taskId task nReduce base (.create
      (Job.entries (job.sortByKey (job.mapf filename (job.content filename))) order) 0))).Contents
      job := by
  obtain ⟨⟨_, _, hfile, _⟩, _⟩ := hact ▸ hc.workers i
  refine h.silent (silent_setActivity _) (setActivity_self _)
    ⟨?_, fun _ hk => absurd hk (Nat.not_lt_zero _)⟩
  have hemitted : job.emitted taskId = job.mapf filename (job.content filename) := by
    rw [Job.emitted, ← hfile, hname]
  rw [hemitted]
  exact (Job.entries_perm horder).trans (hlawful.sortByKey_perm _)

omit [LinearOrder K] in
/-- A pair that is written moves from those to be written to its file. -/
theorem MapContents.write {m base : ℕ} {kv : KeyValue K V} {rest : List (KeyValue K V)}
    (h : w.MapContents job i m base (.write (kv :: rest)))
    (hdir : w'.dir = w.dir.append (.temp i (base + job.reduceId kv.key)) (.inl (job.encode kv))) :
    w'.MapContents job i m base (.write rest) := by
  intro k hk
  obtain ⟨written, hperm, hfile⟩ := h k hk
  by_cases hkey : job.reduceId kv.key = k
  · subst hkey
    refine ⟨written ++ [kv], ?_, ?_⟩
    · rw [List.filter_cons_of_pos (by simp)] at hperm
      rw [List.append_assoc]
      exact hperm
    · rw [hdir, Dir.lookup_append hfile, if_pos rfl, List.map_append, List.map_singleton]
  · refine ⟨written, ?_, ?_⟩
    · rwa [List.filter_cons_of_neg (by simp [hkey])] at hperm
    · have hne : (Name.temp i (base + k) : Name n) ≠ .temp i (base + job.reduceId kv.key) := by
        rw [Ne, Name.temp.injEq]
        omega
      rw [hdir, lookup_append_of_ne hne, hfile]

theorem Contents.runMap (h : w.Contents job) (hc : w.Control job) {taskId nReduce base : ℕ}
    {task : Task F} {stage : MapStage K V}
    (hact : (w.workers i).activity = .map taskId task nReduce base stage)
    (hrun : w.runMap job i taskId task nReduce base stage = some w') : w'.Contents job := by
  obtain ⟨⟨_, hid, _, rfl⟩, hp⟩ := hact ▸ hc.workers i
  have hcontents := h.mapContents hact
  cases stage with
  | read => cases hrun
  | create entries index =>
    obtain ⟨hentries, hempty⟩ := hcontents
    rw [World.runMap] at hrun
    split_ifs at hrun with hlt <;> obtain rfl := Option.some.inj hrun
    · refine h.silent (silent_create _ _) (setActivity_self _) ⟨hentries, fun k hk => ?_⟩
      rw [Dir.lookup_create]
      split_ifs with heq
      · rfl
      · refine hempty k ((Nat.lt_succ_iff_lt_or_eq.mp hk).resolve_right fun hk => heq ?_)
        rw [hk]
    · refine h.silent (silent_setActivity _) (setActivity_self _) fun k hk => ⟨[], ?_, ?_⟩
      · exact hentries.filter _
      · exact hempty k (Nat.lt_of_lt_of_le hk (Nat.le_of_not_lt hlt))
  | write entries =>
    cases entries with
    | nil =>
      obtain rfl := Option.some.inj hrun
      refine h.silent (silent_setActivity _) (setActivity_self _) fun k hk _ => ?_
      obtain ⟨written, hperm, hfile⟩ := hcontents k hk
      rw [List.filter_nil, List.append_nil] at hperm
      exact ⟨_, hfile, written, hperm, rfl⟩
    | cons kv rest =>
      obtain rfl := Option.some.inj hrun
      exact h.silent (silent_append _ _ _) (setActivity_self _) (MapContents.write hcontents rfl)
  | stat index =>
    rw [World.runMap] at hrun
    split_ifs at hrun with hlt
    · split at hrun <;> obtain rfl := Option.some.inj hrun
      · exact h.silent (silent_setActivity _) (setActivity_self _) hcontents
      · exact h.silent (silent_setActivity _) (setActivity_self _)
          fun k hk hle => hcontents k hk (Nat.le_of_succ_le hle)
    · obtain rfl := Option.some.inj hrun
      exact h.silent (silent_setActivity _) (setActivity_self _) trivial
  | rename index =>
    obtain ⟨hlt, htemp, _⟩ := hp
    obtain rfl := Option.some.inj hrun
    have hpub := published_rename (htemp index hlt le_rfl)
      (.map taskId task job.nReduce base (.stat (index + 1)) : Activity F K V J L)
      (.inter task.id index)
    refine h.published hpub (fun file hfile => ?_) (setActivity_self _) fun k hk hle => ?_
    · obtain ⟨file', hfile', hpart⟩ := hcontents index hlt le_rfl
      obtain rfl := Option.some.inj (hfile.symm.trans hfile')
      exact hid ▸ hpart
    · obtain ⟨file, hfile, hpart⟩ := hcontents k hk (Nat.le_of_succ_le hle)
      refine ⟨file, (hpub.lookup (.temp i (base + k)) (by simp) ?_).trans hfile, hpart⟩
      rw [Ne, Name.temp.injEq]
      omega
  | report =>
    obtain rfl := Option.some.inj hrun
    exact h.silent (silent_report _ _) (setActivity_self _) trivial

omit [LinearOrder K] in
/-- While there is no output, the directory lists the files of all map tasks. -/
theorem Control.interFiles_perm (hc : w.Control job) {r : ℕ} (hnot : ¬w.Has (.out r))
    (hmade : ∀ m < job.files.length, w.Made m r) :
    (interFiles w.dir r).Perm (List.range job.files.length) := by
  apply (List.perm_ext_iff_of_nodup (nodup_interFiles r) List.nodup_range).mpr
  intro m
  rw [mem_interFiles, List.mem_range]
  constructor
  · exact fun hhas => (hc.inter m r hhas).1
  · exact fun hm => (hmade m hm).resolve_right fun hmem => hnot (hc.removed m r hmem)

theorem Contents.runReduce (h : w.Contents job) (hc : w.Control job) (hlawful : job.Lawful)
    {r base : ℕ} {stage : ReduceStage J L} (hact : (w.workers i).activity = .reduce r base stage) :
    (w.runReduce job i r base stage).Contents job := by
  obtain ⟨⟨_, hmade⟩, hp⟩ := hact ▸ hc.workers i
  have hcontents := h.reduceContents hact
  cases stage with
  | list =>
    refine h.silent (silent_setActivity _) (setActivity_self _) fun hnot => ?_
    refine ((hc.interFiles_perm hnot hmade).flatMap fun _ _ => .refl _).trans ?_
    exact .of_eq (Job.flatMap_partition r)
  | openFiles rest files =>
    cases rest with
    | nil =>
      refine h.silent (silent_setActivity _) (setActivity_self _) fun hnot => ?_
      simpa using hcontents hnot
    | cons m rest =>
      rw [World.runReduce]
      split
      · exact h.silent (silent_setActivity _) (setActivity_self _) trivial
      · next file hfile =>
        refine h.silent (silent_setActivity _) (setActivity_self _) fun hnot => ?_
        refine List.Perm.trans ?_ (hcontents hnot)
        rw [List.flatMap_append, List.flatMap_singleton, List.append_assoc, List.flatMap_cons]
        exact (((h.inter m r file hfile).decodeFile_perm hlawful).append_right _).append_left _
  | create files =>
    refine h.silent (silent_create _ _) (setActivity_self _) fun hnot => ⟨[], ?_, ?_⟩
    · have hnot : ¬w.Has (.out r) := mt ((silent_create _ _).later.out r) hnot
      exact Job.reduceLines_perm hlawful (hcontents hnot)
    · exact (Dir.lookup_create _ _).trans (if_pos rfl)
  | write lines =>
    cases lines with
    | nil =>
      refine h.silent (silent_setActivity _) (setActivity_self _) fun hnot => ?_
      obtain ⟨written, hperm, hfile⟩ := hcontents hnot
      exact ⟨_, hfile, written, List.append_nil written ▸ hperm, rfl⟩
    | cons line rest =>
      refine h.silent (silent_append _ _ _) (setActivity_self _) fun hnot => ?_
      have hnot : ¬w.Has (.out r) := mt ((silent_append _ _ _).later.out r) hnot
      obtain ⟨written, hperm, hfile⟩ := hcontents hnot
      refine ⟨written ++ [line], ?_, ?_⟩
      · rw [List.append_assoc]
        exact hperm
      · refine (Dir.lookup_append hfile _ _).trans ?_
        rw [if_pos rfl, List.map_append, List.map_singleton]
  | stat =>
    rw [World.runReduce]
    split
    · next hnone =>
      exact h.silent (silent_setActivity _) (setActivity_self _) (hcontents (not_has hnone))
    · exact h.silent (silent_setActivity _) (setActivity_self _) trivial
  | rename =>
    have hpub := published_rename hp (.reduce r base .listAgain : Activity F K V J L) (.out r)
    refine h.publishedOut hpub (fun file hfile => ?_) (setActivity_self _) trivial
    obtain ⟨file', hfile', houtput⟩ := hcontents
    obtain rfl := Option.some.inj (hfile.symm.trans hfile')
    exact houtput
  | listAgain => exact h.silent (silent_setActivity _) (setActivity_self _) trivial
  | remove rest =>
    cases rest with
    | nil => exact h.silent (silent_setActivity _) (setActivity_self _) trivial
    | cons m rest =>
      rw [World.runReduce]
      split
      · exact h.silent (silent_setActivity _) (setActivity_self _) trivial
      · exact h.removedFile (removed_remove _ m r) (setActivity_self _) trivial
  | report => exact h.silent (silent_report _ _) (setActivity_self _) trivial

theorem Contents.heartbeat (h : w.Contents job) (now : ℕ → ℤ) : (w.heartbeat i now).Contents job := by
  refine h.silent (silent_heartbeat now) rfl ?_
  simp only [World.heartbeat, Function.update_self]
  split <;> trivial

theorem Contents.step {action : Action n K} (h : w.Contents job) (hc : w.Control job)
    (hlawful : job.Lawful) (hstep : w.step job action = some w') : w'.Contents job := by
  cases taken_of_step hstep with
  | heartbeat now _ => exact h.heartbeat now
  | read hact hname horder => exact h.read hc hlawful hact hname horder
  | unreadable _ _ => exact h.silent (silent_setActivity _) (setActivity_self _) trivial
  | map hact hrun => exact h.runMap hc hact hrun
  | reduce hact => exact h.runReduce hc hlawful hact
  | stop i => exact h.silent (silent_setActivity _) (setActivity_self _) trivial

theorem contents_init (job : Job F T K V J L) (now : ℤ) :
    (init job now : World n F K V J L).Contents job :=
  ⟨by simp [init], by simp [init], fun _ => trivial⟩

theorem contents_of_reaches (hlawful : job.Lawful) {now : ℤ}
    (h : Reaches (step job) anyStep (init job now) w) : w.Contents job := by
  have hkept : ∀ (w : World n F K V J L) a w', w.Control job ∧ w.Contents job → anyStep w a →
      w.step job a = some w' → w'.Control job ∧ w'.Contents job :=
    fun _ _ _ hinv _ hstep => ⟨hinv.1.step hstep, hinv.2.step hinv.1 hlawful hstep⟩
  exact (h.invariant ⟨control_init job now, contents_init job now⟩ hkept).2

/-- When the coordinator is done, the output files together have the lines of the sequential run,
each once, whatever the workers did and however many of them stopped. -/
theorem done_eq_mrsequential (hlawful : job.Lawful) {now : ℤ}
    (h : Reaches (step job) anyStep (init job now) w) (hdone : w.coordinator.phase = .done) :
    ∃ lines : ℕ → List L,
      (∀ r < job.nReduce, w.dir.lookup (.out r) = some ((lines r).map .inr)) ∧
        ((List.range job.nReduce).flatMap lines).Perm job.mrsequential := by
  have hcontrol := control_of_reaches h
  have hcontents := contents_of_reaches hlawful h
  have hlines : ∀ r, ∃ lines : List L, r < job.nReduce →
      lines.Perm (job.expected r) ∧ w.dir.lookup (.out r) = some (lines.map .inr) := by
    intro r
    by_cases hr : r < job.nReduce
    · have hfinished := hcontrol.scheduled.done hdone r hr
      obtain ⟨file, hfile⟩ := hcontrol.scheduled.reduced r hr hfinished
      obtain ⟨lines, hperm, rfl⟩ := hcontents.out r file hfile
      exact ⟨lines, fun _ => ⟨hperm, hfile⟩⟩
    · exact ⟨[], fun hlt => absurd hlt hr⟩
  choose lines hlines using hlines
  refine ⟨lines, fun r hr => (hlines r hr).2, ?_⟩
  refine List.Perm.trans ?_ (Job.flatMap_expected hlawful)
  exact List.Perm.flatMap_left _ fun r hr => (hlines r (List.mem_range.mp hr)).1

/-- Worker 0 stops in the middle of the first map task. Worker 1 does the second one, then the
first one when its time is over, and both reduce tasks. -/
theorem done_eq_mrsequential_crash :
    ∃ w : World 2 (List ℕ) ℕ ℕ (ℕ × ℕ) (ℕ × ℕ),
      Reaches (step (Job.wordCount [[3, 4, 3], [4]] 2)) anyStep
        (init (Job.wordCount [[3, 4, 3], [4]] 2) 0) w ∧ w.coordinator.phase = .done ∧
      ∃ lines : ℕ → List (ℕ × ℕ),
        (∀ r < 2, w.dir.lookup (.out r) = some ((lines r).map .inr)) ∧
          ((List.range 2).flatMap lines).Perm (Job.wordCount [[3, 4, 3], [4]] 2).mrsequential := by
  obtain ⟨w, hreach, hdone⟩ := exists_reaches (step (Job.wordCount [[3, 4, 3], [4]] 2)) anyStep
    (init (Job.wordCount [[3, 4, 3], [4]] 2) 0 : World 2 (List ℕ) ℕ ℕ (ℕ × ℕ) (ℕ × ℕ))
    ([[.heartbeat 0 (fun _ => 0), .read 0 [4, 3]], List.replicate 9 (.run 0), [.stop 0],
      [.heartbeat 1 (fun _ => 5), .read 1 [4]], List.replicate 11 (.run 1),
      [.heartbeat 1 (fun _ => 11), .read 1 [3, 4]], List.replicate 12 (.run 1),
      .heartbeat 1 (fun _ => 12) :: List.replicate 14 (.run 1),
      .heartbeat 1 (fun _ => 13) :: List.replicate 14 (.run 1)] : List (List (Action 2 ℕ))).flatten
    (fun w => w.coordinator.phase = .done) (by decide +kernel)
  exact ⟨w, hreach, hdone, done_eq_mrsequential (Job.wordCount_lawful _ (by decide)) hreach hdone⟩

end World
end DistributedLabs.MapReduce
