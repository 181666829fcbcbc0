import DistributedLabs.MapReduceControl

/-!
# What a MapReduce job leaves behind

A reduce worker removes the intermediate files of its task in the order of their
names. Another worker of the same task stops at the first file that it finds missing
and reports, so only the worker that is furthest on removes the rest. When every worker
finishes its task, nothing but the results is left, provided that no map worker renames
a file to a name that was removed already; one that was stalled may do that, and the
file then stays for good.
-/

namespace DistributedLabs.MapReduce
open Directories TransitionRuns

/-- The glob `mr-out*` with which the results are collected takes the name. -/
def Name.startsWithMrOut {n : ℕ} : Name n → Bool
  | .temp _ _ => false
  | .inter _ _ | .out _ => true

/-- The worker is at a task. -/
def Activity.inTask {F K V J L : Type} : Activity F K V J L → Bool
  | .idle | .exited => false
  | .map _ _ _ _ _ | .reduce _ _ _ => true

theorem interName_injective {m m' r : ℕ} (h : interName m r = interName m' r) : m = m' := by
  have hdigits : Nat.toDigits 10 m = Nat.toDigits 10 m' :=
    List.append_cancel_right (List.append_cancel_left h)
  have hvalue := congrArg (Nat.ofDigitChars 10 · 0) hdigits
  simpa only [Nat.ofDigitChars_ten_toDigits] using hvalue

/-- All map tasks, in the order in which the files for a reduce task are listed. -/
def listing (count r : ℕ) : List ℕ :=
  (List.range count).insertionSort (ListedBefore r)

theorem mem_listing {count r m : ℕ} : m ∈ listing count r ↔ m < count := by
  rw [listing, (List.perm_insertionSort _ _).mem_iff, List.mem_range]

theorem length_listing (count r : ℕ) : (listing count r).length = count := by
  rw [listing, List.length_insertionSort, List.length_range]

theorem nodup_listing (count r : ℕ) : (listing count r).Nodup := by
  rw [listing, (List.perm_insertionSort _ _).nodup_iff]
  exact List.nodup_range

theorem ListedBefore.antisymm {r m m' : ℕ} (h : ListedBefore r m m') (h' : ListedBefore r m' m) :
    m = m' := interName_injective (List.le_antisymm h h')

theorem pairwise_listedBefore (r : ℕ) (l : List ℕ) :
    (l.insertionSort (ListedBefore r)).Pairwise (ListedBefore r) := by
  have htotal : Std.Total (ListedBefore r) :=
    ⟨fun m m' => List.le_total (interName m r) (interName m' r)⟩
  have htrans : IsTrans ℕ (ListedBefore r) := ⟨fun _ _ _ => List.le_trans⟩
  exact List.pairwise_insertionSort _ l

namespace World
variable {n : ℕ} {F T K V J L : Type} {job : Job F T K V J L} {w w' : World n F K V J L}
  {i : Fin n}

/-- A directory is listed by name, whatever the order in which the files were made. -/
theorem interFiles_eq {count r : ℕ} {l : List ℕ} (hl : l.Sublist (listing count r))
    (h : ∀ m, w.Has (.inter m r) ↔ m ∈ l) : interFiles w.dir r = l := by
  have hperm : (interFiles w.dir r).Perm l := by
    apply (List.perm_ext_iff_of_nodup (nodup_interFiles r) ((nodup_listing count r).sublist hl)).mpr
    intro m
    rw [mem_interFiles, h]
  exact hperm.eq_of_pairwise (fun _ _ _ _ => ListedBefore.antisymm) (pairwise_listedBefore r _)
    ((pairwise_listedBefore r _).sublist hl)

/-- A worker of reduce task `r`, when the first `gone` files of the listing were removed. -/
def Sweeps (files : List ℕ) (r gone : ℕ) : Activity F K V J L → Prop
  | .reduce r' _ (.remove rest) => r' = r → ∃ k ≤ gone, rest = files.drop k
  | .reduce r' _ .report => r' = r → 0 < gone
  | _ => True

/-- The first `gone` files of reduce task `r` were removed. If there are others, some worker is
about to remove them. -/
structure Swept (job : Job F T K V J L) (w : World n F K V J L) (r gone : ℕ) : Prop where
  le : gone ≤ job.files.length
  removed : ∀ m, (m, r) ∈ w.removed ↔ m ∈ (listing job.files.length r).take gone
  workers : ∀ i, Sweeps (listing job.files.length r) r gone (w.workers i).activity
  next : 0 < gone → gone < job.files.length → ∃ i base,
    (w.workers i).activity = .reduce r base (.remove ((listing job.files.length r).drop gone))
  finished : w.coordinator.Finished (job.files.length + r) → 0 < gone

structure Cleanup (job : Job F T K V J L) (w : World n F K V J L) : Prop where
  present : ∀ m r, w.Has (.inter m r) → (m, r) ∉ w.removed
  swept : ∀ r < job.nReduce, ∃ gone, w.Swept job r gone

theorem Sweeps.mono {files : List ℕ} {r gone gone' : ℕ} {a : Activity F K V J L}
    (h : Sweeps files r gone a) (hle : gone ≤ gone') : Sweeps files r gone' a := by
  unfold Sweeps at h ⊢
  split at h
  · intro hr
    obtain ⟨k, hk, hrest⟩ := h hr
    exact ⟨k, Nat.le_trans hk hle, hrest⟩
  · exact fun hr => Nat.lt_of_lt_of_le (h hr) hle
  · trivial

theorem Swept.keep {r gone : ℕ} (h : w.Swept job r gone)
    (hworkers : ∀ j ≠ i, w'.workers j = w.workers j)
    (hremoved : ∀ m, (m, r) ∈ w'.removed ↔ (m, r) ∈ w.removed)
    (hnext : 0 < gone → gone < job.files.length → ∀ base, (w.workers i).activity ≠
      .reduce r base (.remove ((listing job.files.length r).drop gone)))
    (hself : Sweeps (listing job.files.length r) r gone (w'.workers i).activity)
    (hfinished : w'.coordinator.Finished (job.files.length + r) → 0 < gone) :
    w'.Swept job r gone where
  le := h.le
  removed := fun m => (hremoved m).trans (h.removed m)
  workers := fun j => by
    rcases eq_or_ne j i with rfl | hj
    · exact hself
    · rw [hworkers j hj]
      exact h.workers j
  next := fun hpos hlt => by
    obtain ⟨j, base, hact⟩ := h.next hpos hlt
    rcases eq_or_ne j i with rfl | hj
    · exact absurd hact (hnext hpos hlt base)
    · exact ⟨j, base, by rw [hworkers j hj, hact]⟩
  finished := hfinished

/-- A worker that has started to remove the files of its task. -/
def Sweeping : Activity F K V J L → Prop
  | .reduce _ _ (.remove _) | .reduce _ _ .report => True
  | _ => False

theorem sweeps_of_not_sweeping {files : List ℕ} {r gone : ℕ} {a : Activity F K V J L}
    (h : ¬Sweeping a) : Sweeps files r gone a := by
  unfold Sweeps
  split
  · exact absurd trivial h
  · exact absurd trivial h
  · trivial

theorem sweeps_of_ne {files : List ℕ} {r r' gone base : ℕ} {stage : ReduceStage J L} (h : r ≠ r') :
    Sweeps files r' gone (.reduce r base stage : Activity F K V J L) := by
  cases stage with
  | remove rest => exact fun hr => absurd hr h
  | report => exact fun hr => absurd hr h
  | list | openFiles _ _ | create _ | write _ | stat | rename | listAgain => trivial

variable {a b : Activity F K V J L}

theorem Cleanup.quiet (h : w.Cleanup job) (hworkers : ∀ j ≠ i, w'.workers j = w.workers j)
    (hremoved : w'.removed = w.removed)
    (hpresent : ∀ m r, w'.Has (.inter m r) → (m, r) ∉ w.removed)
    (hact : (w.workers i).activity = b) (hbefore : ¬Sweeping b)
    (hact' : (w'.workers i).activity = a) (hafter : ¬Sweeping a)
    (hfinished : ∀ r, w'.coordinator.Finished (job.files.length + r) →
      w.coordinator.Finished (job.files.length + r)) : w'.Cleanup job := by
  refine ⟨fun m r hhas => hremoved ▸ hpresent m r hhas, fun r hr => ?_⟩
  obtain ⟨gone, hswept⟩ := h.swept r hr
  refine ⟨gone, hswept.keep hworkers (fun m => by rw [hremoved]) (fun _ _ base hb => ?_) ?_ ?_⟩
  · rw [← hact, hb] at hbefore
    exact hbefore trivial
  · exact hact' ▸ sweeps_of_not_sweeping hafter
  · exact fun hf => hswept.finished (hfinished r hf)

theorem Cleanup.silent (h : w.Cleanup job) (hs : Silent i w w')
    (hact : (w.workers i).activity = b) (hbefore : ¬Sweeping b)
    (hact' : (w'.workers i).activity = a) (hafter : ¬Sweeping a)
    (hfinished : ∀ r, w'.coordinator.Finished (job.files.length + r) →
      w.coordinator.Finished (job.files.length + r)) : w'.Cleanup job :=
  h.quiet hs.workers hs.removed (fun m r hhas => h.present m r ((has_congr (hs.inter m r)).mp hhas))
    hact hbefore hact' hafter hfinished

theorem Cleanup.runMap (h : w.Cleanup job) (hc : w.Control job) {taskId nReduce base : ℕ}
    {task : Task F} {stage : MapStage K V}
    (hact : (w.workers i).activity = .map taskId task nReduce base stage)
    (hintime : ∀ index, stage = .rename index → (task.id, index) ∉ w.removed)
    (hrun : w.runMap job i taskId task nReduce base stage = some w') : w'.Cleanup job := by
  obtain ⟨⟨htask, hid, _, rfl⟩, hp⟩ := hact ▸ hc.workers i
  cases stage with
  | read => cases hrun
  | create entries index =>
    rw [World.runMap] at hrun
    split_ifs at hrun <;> obtain rfl := Option.some.inj hrun
    · exact h.silent (silent_create _ _) hact id (setActivity_self _) id fun _ => id
    · exact h.silent (silent_setActivity _) hact id (setActivity_self _) id fun _ => id
  | write entries =>
    cases entries with
    | nil =>
      obtain rfl := Option.some.inj hrun
      exact h.silent (silent_setActivity _) hact id (setActivity_self _) id fun _ => id
    | cons kv rest =>
      obtain rfl := Option.some.inj hrun
      exact h.silent (silent_append _ _ _) hact id (setActivity_self _) id fun _ => id
  | stat index =>
    rw [World.runMap] at hrun
    split_ifs at hrun
    · split at hrun <;> obtain rfl := Option.some.inj hrun <;>
        exact h.silent (silent_setActivity _) hact id (setActivity_self _) id fun _ => id
    · obtain rfl := Option.some.inj hrun
      exact h.silent (silent_setActivity _) hact id (setActivity_self _) id fun _ => id
  | rename index =>
    obtain ⟨hlt, htemp, _⟩ := hp
    obtain rfl := Option.some.inj hrun
    have hpub := published_rename (htemp index hlt le_rfl)
      (.map taskId task job.nReduce base (.stat (index + 1)) : Activity F K V J L)
      (.inter task.id index)
    refine h.quiet hpub.workers rfl (fun m r hhas => ?_) hact id (setActivity_self _) id fun _ => id
    by_cases heq : (Name.inter m r : Name n) = .inter task.id index
    · obtain ⟨rfl, rfl⟩ := Name.inter.inj heq
      exact hintime r rfl
    · exact h.present m r ((has_congr (hpub.lookup _ heq (by simp))).mp hhas)
  | report =>
    obtain rfl := Option.some.inj hrun
    refine h.silent (silent_report _ _) hact id (setActivity_self _) id fun r hf => ?_
    have hindex : taskId < job.files.length + job.nReduce := Nat.lt_add_right _ htask
    have hreported := hc.scheduled.wellFormed.report .mapJob taskId hindex
    refine ((hreported.finished _).mp hf).resolve_right fun heq => ?_
    change job.files.length + r = taskId at heq
    omega

/-- What is left of the listing is what the directory has. -/
theorem Swept.has_iff {r gone : ℕ} (h : w.Swept job r gone) (hclean : w.Cleanup job)
    (hc : w.Control job) (hmade : ∀ m < job.files.length, w.Made m r) (m : ℕ) :
    w.Has (.inter m r) ↔ m ∈ (listing job.files.length r).drop gone := by
  constructor
  · intro hhas
    have hmem : m ∈ listing job.files.length r := mem_listing.mpr (hc.inter m r hhas).1
    rw [← List.take_append_drop gone (listing job.files.length r), List.mem_append] at hmem
    exact hmem.resolve_left fun htake => hclean.present m r hhas ((h.removed m).mpr htake)
  · intro hdrop
    refine (hmade m (mem_listing.mp (List.mem_of_mem_drop hdrop))).resolve_right fun hremoved => ?_
    have hdisjoint := List.disjoint_take_drop (nodup_listing job.files.length r) (le_refl gone)
    exact hdisjoint ((h.removed m).mp hremoved) hdrop

/-- A suffix of a listing starts with a file of a shorter suffix only if it is that one. -/
theorem mem_drop_iff_eq {files rest : List ℕ} {m k gone : ℕ} (hnodup : files.Nodup)
    (hk : k ≤ gone) (h : m :: rest = files.drop k) : m ∈ files.drop gone ↔ k = gone := by
  constructor
  · intro hmem
    by_contra hne
    have hrest : rest = files.drop (k + 1) := by
      rw [← List.tail_drop, ← h, List.tail_cons]
    have hdrop : files.drop gone = rest.drop (gone - (k + 1)) := by
      rw [hrest, List.drop_drop]
      congr 1
      omega
    have hcons : (m :: rest).Nodup := h ▸ hnodup.sublist (List.drop_sublist _ _)
    exact (List.nodup_cons.mp hcons).1 (List.mem_of_mem_drop (hdrop ▸ hmem))
  · rintro rfl
    rw [← h]
    exact List.mem_cons_self

theorem Swept.rest_eq {r gone base : ℕ} {rest : List ℕ} (h : w.Swept job r gone)
    (hact : (w.workers i).activity = .reduce r base (.remove rest)) :
    ∃ k ≤ gone, rest = (listing job.files.length r).drop k := by
  have hsweeps := h.workers i
  rw [hact] at hsweeps
  exact hsweeps rfl

theorem Cleanup.ofTask (h : w.Cleanup job) {r base : ℕ} {stage : ReduceStage J L}
    (hact : (w.workers i).activity = .reduce r base stage)
    (hworkers : ∀ j ≠ i, w'.workers j = w.workers j)
    (hremoved : ∀ m r', r' ≠ r → ((m, r') ∈ w'.removed ↔ (m, r') ∈ w.removed))
    (hself : ∀ files r' gone, r ≠ r' → Sweeps files r' gone (w'.workers i).activity)
    (hfinished : ∀ r', r' ≠ r → w'.coordinator.Finished (job.files.length + r') →
      w.coordinator.Finished (job.files.length + r'))
    (hpresent : ∀ m r, w'.Has (.inter m r) → (m, r) ∉ w'.removed)
    (hswept : ∀ gone, w.Swept job r gone → ∃ gone', w'.Swept job r gone') : w'.Cleanup job := by
  refine ⟨hpresent, fun r' hr' => ?_⟩
  obtain ⟨gone, hgone⟩ := h.swept r' hr'
  rcases eq_or_ne r' r with rfl | hne
  · exact hswept gone hgone
  · refine ⟨gone, hgone.keep hworkers (fun m => hremoved m r' hne) (fun _ _ base' hact' => ?_)
      (hself _ _ _ hne.symm) fun hf => hgone.finished (hfinished r' hne hf)⟩
    rw [hact, Activity.reduce.injEq] at hact'
    exact hne hact'.1.symm

/-- A step of a reduce worker that changes no file. -/
theorem Cleanup.reduceOnly (h : w.Cleanup job) {r base : ℕ} {stage stage' : ReduceStage J L}
    (hact : (w.workers i).activity = .reduce r base stage)
    (hnext : ∀ gone, w.Swept job r gone → 0 < gone → gone < job.files.length →
      stage ≠ .remove ((listing job.files.length r).drop gone))
    (hself : ∀ gone, w.Swept job r gone → Sweeps (listing job.files.length r) r gone
      (.reduce r base stage' : Activity F K V J L)) :
    (w.setActivity i (.reduce r base stage')).Cleanup job := by
  have hs := silent_setActivity (w := w) (i := i) (.reduce r base stage' : Activity F K V J L)
  refine h.ofTask hact hs.workers (fun _ _ _ => Iff.rfl) ?_ (fun _ _ => id) h.present ?_
  · intro files r' gone hne
    rw [setActivity_self]
    exact sweeps_of_ne hne
  · intro gone hswept
    refine ⟨gone, hswept.keep hs.workers (fun _ => Iff.rfl) (fun hpos hlt base' hact' => ?_) ?_
      hswept.finished⟩
    · rw [hact, Activity.reduce.injEq] at hact'
      exact hnext gone hswept hpos hlt hact'.2.2
    · rw [setActivity_self]
      exact hself gone hswept

theorem Cleanup.removeFile (h : w.Cleanup job) (hc : w.Control job) {r base m : ℕ}
    {rest : List ℕ} (hact : (w.workers i).activity = .reduce r base (.remove (m :: rest)))
    (hhas : w.Has (.inter m r)) :
    Cleanup job { w.setActivity i (.reduce r base (.remove rest)) with
      dir := w.dir.remove (.inter m r), removed := w.removed ++ [(m, r)] } := by
  obtain ⟨⟨_, hmade⟩, _⟩ := hact ▸ hc.workers i
  have hrem := removed_remove (w := w) (i := i)
    (.reduce r base (.remove rest) : Activity F K V J L) m r
  refine h.ofTask hact hrem.workers (fun m' r' hne => ?_) (fun files r' gone hne => ?_)
    (fun _ _ => id) (fun m' r' hhas' => ?_) fun gone hswept => ⟨gone + 1, ?_⟩
  · simp [hne]
  · rw [setActivity_self]
    exact sweeps_of_ne hne
  · have hne : (Name.inter m' r' : Name n) ≠ .inter m r :=
      fun heq => not_has hrem.target (heq ▸ hhas')
    have hpresent := h.present m' r' ((has_congr (hrem.lookup _ hne)).mp hhas')
    rw [List.mem_append, List.mem_singleton, Prod.mk.injEq]
    exact fun hmem => hmem.elim hpresent fun ⟨hm, hr⟩ => hne (hm ▸ hr ▸ rfl)
  · obtain ⟨k, hk, hdrop⟩ := hswept.rest_eq hact
    obtain rfl := (mem_drop_iff_eq (nodup_listing _ r) hk hdrop).mp
      ((hswept.has_iff h hc hmade m).mp hhas)
    have hget : (listing job.files.length r)[k]? = some m := by
      rw [← List.head?_drop, ← hdrop, List.head?_cons]
    have hlt : k < job.files.length :=
      length_listing job.files.length r ▸ (List.getElem?_eq_some_iff.mp hget).1
    have hrest : rest = (listing job.files.length r).drop (k + 1) := by
      rw [← List.tail_drop, ← hdrop, List.tail_cons]
    refine ⟨hlt, fun m' => ?_, fun j => ?_, fun _ _ => ?_, fun _ => Nat.succ_pos k⟩
    · rw [List.take_add_one, hget, List.mem_append, List.mem_append, hswept.removed]
      simp
    · rcases eq_or_ne j i with rfl | hj
      · rw [setActivity_self]
        exact fun _ => ⟨k + 1, le_rfl, hrest⟩
      · rw [hrem.workers j hj]
        exact (hswept.workers j).mono (Nat.le_succ k)
    · exact ⟨i, base, by rw [setActivity_self, hrest]⟩

theorem Cleanup.missingFile (h : w.Cleanup job) (hc : w.Control job) {r base m : ℕ}
    {rest : List ℕ} (hact : (w.workers i).activity = .reduce r base (.remove (m :: rest)))
    (hmissing : ¬w.Has (.inter m r)) : (w.setActivity i (.reduce r base .report)).Cleanup job := by
  obtain ⟨⟨_, hmade⟩, _⟩ := hact ▸ hc.workers i
  refine h.reduceOnly hact (fun gone hswept _ _ heq => ?_) fun gone hswept _ => ?_
  · refine hmissing ((hswept.has_iff h hc hmade m).mpr ?_)
    rw [← ReduceStage.remove.inj heq]
    exact List.mem_cons_self
  · obtain ⟨k, hk, hdrop⟩ := hswept.rest_eq hact
    have hmem := (hswept.has_iff h hc hmade m).not.mp hmissing
    rw [mem_drop_iff_eq (nodup_listing _ r) hk hdrop] at hmem
    omega

/-- Only tasks that have removed a file are reported. -/
theorem Cleanup.reportReduce (h : w.Cleanup job) (hc : w.Control job) {r base : ℕ}
    (hact : (w.workers i).activity = .reduce r base .report) :
    Cleanup job { w.setActivity i .idle with coordinator := w.coordinator.report .reduceJob r } := by
  obtain ⟨⟨hr, _⟩, _⟩ := hact ▸ hc.workers i
  have hindex : r + job.files.length < job.files.length + job.nReduce := by omega
  have hreported := hc.scheduled.wellFormed.report .reduceJob r hindex
  have hs := silent_report (w := w) (i := i) .idle (w.coordinator.report .reduceJob r)
  refine h.ofTask hact hs.workers (fun _ _ _ => Iff.rfl) ?_ ?_ h.present ?_
  · intro files r' gone _
    rw [setActivity_self]
    trivial
  · intro r' hne hf
    refine ((hreported.finished _).mp hf).resolve_right fun heq => ?_
    change job.files.length + r' = r + job.files.length at heq
    omega
  · intro gone hswept
    have hsweeps := hswept.workers i
    rw [hact] at hsweeps
    refine ⟨gone, hswept.keep hs.workers (fun _ => Iff.rfl) ?_ ?_ fun _ => hsweeps rfl⟩
    · intro _ _ base' hact'
      rw [hact, Activity.reduce.injEq] at hact'
      cases hact'.2.2
    · rw [setActivity_self]
      trivial

theorem Cleanup.runReduce [LinearOrder K] (h : w.Cleanup job) (hc : w.Control job)
    (hfiles : 0 < job.files.length) {r base : ℕ} {stage : ReduceStage J L}
    (hact : (w.workers i).activity = .reduce r base stage) :
    (w.runReduce job i r base stage).Cleanup job := by
  obtain ⟨⟨_, hmade⟩, hp⟩ := hact ▸ hc.workers i
  cases stage with
  | list => exact h.silent (silent_setActivity _) hact id (setActivity_self _) id fun _ => id
  | openFiles rest files =>
    cases rest with
    | nil => exact h.silent (silent_setActivity _) hact id (setActivity_self _) id fun _ => id
    | cons m rest =>
      rw [World.runReduce]
      split
      · exact h.silent (silent_setActivity _) hact id (setActivity_self _) id fun _ => id
      · exact h.silent (silent_setActivity _) hact id (setActivity_self _) id fun _ => id
  | create files => exact h.silent (silent_create _ _) hact id (setActivity_self _) id fun _ => id
  | write lines =>
    cases lines with
    | nil => exact h.silent (silent_setActivity _) hact id (setActivity_self _) id fun _ => id
    | cons line rest =>
      exact h.silent (silent_append _ _ _) hact id (setActivity_self _) id fun _ => id
  | stat =>
    rw [World.runReduce]
    split
    · exact h.silent (silent_setActivity _) hact id (setActivity_self _) id fun _ => id
    · exact h.silent (silent_setActivity _) hact id (setActivity_self _) id fun _ => id
  | rename =>
    have hpub := published_rename hp (.reduce r base .listAgain : Activity F K V J L) (.out r)
    refine h.quiet hpub.workers rfl (fun m r' hhas => ?_) hact id
      (setActivity_self _) id fun _ => id
    exact h.present m r' ((has_congr (hpub.lookup (.inter m r') (by simp) (by simp))).mp hhas)
  | listAgain =>
    refine h.reduceOnly hact (fun _ _ _ _ => by simp) fun gone hswept _ => ?_
    exact ⟨gone, le_rfl, interFiles_eq (List.drop_sublist _ _) (hswept.has_iff h hc hmade)⟩
  | remove rest =>
    cases rest with
    | nil =>
      refine h.reduceOnly hact (fun gone _ _ hlt heq => ?_) fun gone hswept _ => ?_
      · have hnil := (ReduceStage.remove.inj heq).symm
        rw [List.drop_eq_nil_iff, length_listing] at hnil
        omega
      · obtain ⟨k, hk, hnil⟩ := hswept.rest_eq hact
        rw [eq_comm, List.drop_eq_nil_iff, length_listing] at hnil
        omega
    | cons m rest =>
      rw [World.runReduce]
      split
      · next hnone => exact h.missingFile hc hact (not_has hnone)
      · next file hfile => exact h.removeFile hc hact ⟨file, hfile⟩
  | report => exact h.reportReduce hc hact

/-- No worker stops in the middle of a task. -/
def finishesTasks (w : World n F K V J L) : Action n K → Bool
  | .stop i => !(w.workers i).activity.inTask
  | _ => true

/-- A map worker does not rename a file to a name that was removed already. -/
def renamesInTime (w : World n F K V J L) : Action n K → Bool
  | .run i =>
    match (w.workers i).activity with
    | .map _ task _ _ (.rename index) => !w.removed.contains (task.id, index)
    | _ => true
  | _ => true

/-- Every worker finishes its tasks, and no map worker comes too late. -/
def orderly (w : World n F K V J L) (action : Action n K) : Prop :=
  w.finishesTasks action ∧ w.renamesInTime action

instance (action : Action n K) : Decidable (w.orderly action) :=
  inferInstanceAs (Decidable (_ ∧ _))

theorem Cleanup.heartbeat (h : w.Cleanup job) (hc : w.Control job)
    (hact : (w.workers i).activity = .idle) (now : ℕ → ℤ) : (w.heartbeat i now).Cleanup job := by
  have hanswered := hc.scheduled.wellFormed.heartBeat now
  refine h.silent (silent_heartbeat now) hact id rfl ?_ fun r => (hanswered.finished _).mp
  simp only [World.heartbeat, Function.update_self]
  split <;> exact id

theorem not_sweeping_of_inTask {a : Activity F K V J L} (h : a.inTask = false) : ¬Sweeping a := by
  cases a with
  | idle | exited => exact id
  | map taskId task nReduce base stage => cases h
  | reduce r base stage => cases h

variable [LinearOrder K]

theorem Cleanup.step {action : Action n K} (h : w.Cleanup job) (hc : w.Control job)
    (hfiles : 0 < job.files.length) (hguard : w.orderly action)
    (hstep : w.step job action = some w') : w'.Cleanup job := by
  cases taken_of_step hstep with
  | heartbeat now hact => exact h.heartbeat hc hact now
  | read hact _ _ =>
    exact h.silent (silent_setActivity _) hact id (setActivity_self _) id fun _ => id
  | unreadable hact _ =>
    exact h.silent (silent_setActivity _) hact id (setActivity_self _) id fun _ => id
  | map hact hrun =>
    refine h.runMap hc hact (fun index hstage => ?_) hrun
    have hintime := hguard.2
    simpa [renamesInTime, hact, hstage] using hintime
  | reduce hact => exact h.runReduce hc hfiles hact
  | stop i =>
    have hidle : (w.workers i).activity.inTask = false := by simpa [finishesTasks] using hguard.1
    exact h.silent (silent_setActivity _) rfl (not_sweeping_of_inTask hidle) (setActivity_self _) id
      fun _ => id

omit [LinearOrder K] in
theorem cleanup_init (job : Job F T K V J L) (now : ℤ) :
    (init job now : World n F K V J L).Cleanup job := by
  have hfinished := Coordinator.not_finished_make job.files job.nReduce now
  refine ⟨fun m r _ => List.not_mem_nil, fun r _ => ⟨0, Nat.zero_le _, fun m => ?_,
    fun _ => trivial, fun hpos => absurd hpos (Nat.lt_irrefl 0), fun hf => absurd hf (hfinished _)⟩⟩
  simp [init]

/-- When the coordinator is done and every worker has finished its tasks, the files whose names
start with `mr-out-` are the results. -/
theorem only_results_left (hfiles : 0 < job.files.length) {now : ℤ}
    (h : Reaches (step job) orderly (init job now) w) (hdone : w.coordinator.phase = .done)
    (hidle : ∀ i, (w.workers i).activity.inTask = false) (name : Name n)
    (hname : name.startsWithMrOut) : w.Has name ↔ ∃ r < job.nReduce, name = .out r := by
  have hkept : ∀ (w : World n F K V J L) a w', w.Control job ∧ w.Cleanup job → w.orderly a →
      w.step job a = some w' → w'.Control job ∧ w'.Cleanup job :=
    fun _ _ _ hinv hguard hstep => ⟨hinv.1.step hstep, hinv.2.step hinv.1 hfiles hguard hstep⟩
  obtain ⟨hc, hclean⟩ := h.invariant ⟨control_init job now, cleanup_init job now⟩ hkept
  cases name with
  | temp i id => cases hname
  | inter m r =>
    refine ⟨fun hhas => absurd hhas ?_, fun ⟨_, _, heq⟩ => by cases heq⟩
    intro hhas
    obtain ⟨hm, hr⟩ := hc.inter m r hhas
    obtain ⟨gone, hswept⟩ := hclean.swept r hr
    have hpos := hswept.finished (hc.scheduled.done hdone r hr)
    have hall : gone = job.files.length := by
      refine Nat.le_antisymm hswept.le (Nat.le_of_not_lt fun hlt => ?_)
      obtain ⟨i, base, hact⟩ := hswept.next hpos hlt
      have hnot := hidle i
      rw [hact] at hnot
      cases hnot
    refine hclean.present m r hhas ((hswept.removed m).mpr ?_)
    rw [hall, List.take_of_length_le (length_listing _ r).le]
    exact mem_listing.mpr hm
  | out r =>
    constructor
    · exact fun hhas => ⟨r, hc.out r hhas, rfl⟩
    · rintro ⟨r', hr', heq⟩
      obtain rfl := Name.out.inj heq
      exact hc.scheduled.reduced r hr' (hc.scheduled.done hdone r hr')

/-- Worker 0 stalls before it renames its file, and worker 1 does the map task again; but worker 0
wakes up before the reduce task. -/
theorem only_results_left_stalled :
    ∃ w : World 2 (List ℕ) ℕ ℕ (ℕ × ℕ) (ℕ × ℕ),
      Reaches (step (Job.wordCount [[3], [4]] 1)) orderly (init (Job.wordCount [[3], [4]] 1) 0) w ∧
      w.coordinator.phase = .done ∧ (∀ i, (w.workers i).activity.inTask = false) ∧
      ∀ name, name.startsWithMrOut → (w.Has name ↔ ∃ r < 1, name = .out r) := by
  obtain ⟨w, hreach, hdone, hidle⟩ := exists_reaches (step (Job.wordCount [[3], [4]] 1)) orderly
    (init (Job.wordCount [[3], [4]] 1) 0 : World 2 (List ℕ) ℕ ℕ (ℕ × ℕ) (ℕ × ℕ))
    ([[.heartbeat 0 (fun _ => 0), .read 0 [3]], List.replicate 5 (.run 0),
      [.heartbeat 1 (fun _ => 1), .read 1 [4]], List.replicate 8 (.run 1),
      [.heartbeat 1 (fun _ => 11), .read 1 [3]], List.replicate 8 (.run 1), List.replicate 3 (.run 0),
      .heartbeat 1 (fun _ => 12) :: List.replicate 15 (.run 1)] : List (List (Action 2 ℕ))).flatten
    (fun w => w.coordinator.phase = .done ∧ ∀ i, (w.workers i).activity.inTask = false)
    (by decide +kernel)
  exact ⟨w, hreach, hdone, hidle, only_results_left (by decide) hreach hdone hidle⟩

/-- Worker 0 stalls before it renames its file. Worker 1 does the map task again, and then the
reduce task, after which the coordinator is done. Worker 0 wakes up and renames its file to a name
that was removed. -/
theorem intermediate_file_left :
    ∃ w : World 2 (List ℕ) ℕ ℕ (ℕ × ℕ) (ℕ × ℕ),
      Reaches (step (Job.wordCount [[3]] 1)) (fun w a => w.finishesTasks a)
        (init (Job.wordCount [[3]] 1) 0) w ∧
      w.coordinator.phase = .done ∧ (∀ i, (w.workers i).activity.inTask = false) ∧
      w.Has (.inter 0 0) :=
  exists_reaches (step (Job.wordCount [[3]] 1)) (fun w a => w.finishesTasks a)
    (init (Job.wordCount [[3]] 1) 0 : World 2 (List ℕ) ℕ ℕ (ℕ × ℕ) (ℕ × ℕ))
    ([[.heartbeat 0 (fun _ => 0), .read 0 [3]], List.replicate 5 (.run 0),
      [.heartbeat 1 (fun _ => 11), .read 1 [3]], List.replicate 8 (.run 1),
      .heartbeat 1 (fun _ => 12) :: List.replicate 12 (.run 1),
      List.replicate 3 (.run 0), [.heartbeat 0 (fun _ => 13), .heartbeat 1 (fun _ => 13)]] :
      List (List (Action 2 ℕ))).flatten
    (fun w => w.coordinator.phase = .done ∧ (∀ i, (w.workers i).activity.inTask = false) ∧
      w.Has (.inter 0 0)) (by decide +kernel)

end World
end DistributedLabs.MapReduce
