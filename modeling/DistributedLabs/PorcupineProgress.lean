import DistributedLabs.PorcupineParallel

/-!
# The parallel check ends

Every step of `checkParallel` and its goroutines brings the end nearer, so that every run is finite.
If there is anything to check, a run cannot stop before `checkParallel` has returned. Without parts
and without a timeout it waits for answers that nobody sends.
-/

namespace DistributedLabs.Porcupine.Parallel
open MemoisedSearch TransitionRuns

variable {S I O : Type} {model : FilledModel S I O} {entries : List (Entry I O)} {ops : List (I × O)}
  {history : List (List (Entry I O))} {values : List (List (I × O))} {kill computeInfo timeout : Bool}
  {w w' : Parallel S I O}

variable (model entries ops) in
/-- How many steps a goroutine may still make. -/
def TaskRank : Task S I O → ℕ → Prop
  | .ready, n => n = iterationBound ops.length + 3
  | .running s, n => ∃ a, Checking model entries ops s a ∧ n = workLeft entries a + 3
  | .finished _ _, n => n = 2
  | .sent, n => n = 0
  | .panicked, _ => False

theorem TaskRank.iterate (hd : Describes entries ops) {task task' : Task S I O} {n : ℕ}
    (h : TaskRank model entries ops task n)
    (hiterate : iterateTask model computeInfo kill entries task = some task') :
    ∃ m < n, TaskRank model entries ops task' m := by
  cases task with
  | ready =>
    obtain ⟨s, hs, hrefines, -⟩ := @exists_startSearch S _ _ model _ _ hd
    simp only [iterateTask, hs, Option.some.injEq] at hiterate
    subst hiterate
    have hlt := @workLeft_start_lt S _ _ model _ _ hd
    exact ⟨_, by rw [TaskRank] at h; omega, _, checking_start hrefines, rfl⟩
  | running s =>
    obtain ⟨a, hc, rfl⟩ := h
    have hiter := hc.refines.iteration computeInfo hd
    cases hstep : (problem model entries ops).step a with
    | found =>
      rw [hstep] at hiter
      simp only [iterateTask, hiter kill, Option.some.injEq] at hiterate
      subst hiterate
      exact ⟨2, by omega, rfl⟩
    | exhausted =>
      rw [hstep] at hiter
      simp only [iterateTask, hiter kill, Option.some.injEq] at hiterate
      subst hiterate
      exact ⟨2, by omega, rfl⟩
    | again a' =>
      rw [hstep] at hiter
      obtain ⟨hkilled, s', hs', hrefines, -⟩ := hiter
      cases kill with
      | true =>
        simp only [iterateTask, hkilled, Option.some.injEq] at hiterate
        subst hiterate
        exact ⟨2, by omega, rfl⟩
      | false =>
        simp only [iterateTask, hs', Option.some.injEq] at hiterate
        subst hiterate
        obtain ⟨hc', hlt⟩ := hc.step hrefines hstep
        exact ⟨_, by omega, a', hc', rfl⟩
  | finished ok longest => cases hiterate
  | sent => cases hiterate
  | panicked => cases hiterate

def phaseRank : Phase I O → ℕ
  | .looping => 2
  | .collecting => 1
  | .returned _ _ => 0

variable (model history values) in
/-- The steps that are left for each of the goroutines. -/
structure Ranked (tasks : List (Task S I O)) (ranks : List ℕ) : Prop where
  length : ranks.length = history.length
  task : ∀ i entries ops task, IsPart history values i entries ops → tasks[i]? = some task →
    ∃ n, ranks[i]? = some n ∧ TaskRank model entries ops task n

theorem Ranked.set {tasks : List (Task S I O)} {ranks : List ℕ} (h : Ranked model history values tasks ranks)
    {i n : ℕ} {task : Task S I O} (hpart : IsPart history values i entries ops)
    (htask : TaskRank model entries ops task n) :
    Ranked model history values (tasks.set i task) (ranks.set i n) where
  length := by simpa using h.length
  task := by
    intro j entries' ops' t hpart' ht
    rw [List.getElem?_set] at ht ⊢
    split_ifs at ht with hij hi
    · subst hij
      cases ht
      obtain rfl := Option.some.inj (hpart.entries.symm.trans hpart'.entries)
      obtain rfl := Option.some.inj (hpart.values.symm.trans hpart'.values)
      have hlt : i < ranks.length := h.length ▸ (List.getElem?_eq_some_iff.mp hpart.entries).1
      exact ⟨n, by simp [hlt], htask⟩
    · rw [if_neg hij]
      exact h.task j entries' ops' t hpart' ht

variable (model history values) in
/-- The steps of the goroutines, the answers in the channel, and the end of the loop. -/
def Rank (w : Parallel S I O) (n : ℕ) : Prop :=
  w.tasks.length = history.length ∧ ∃ ranks, Ranked model history values w.tasks ranks ∧
    n = ranks.sum + w.results.length + phaseRank w.phase

theorem sum_set_add {l : List ℕ} {i m n : ℕ} (h : l[i]? = some n) : (l.set i m).sum + n = l.sum + m := by
  induction l generalizing i with
  | nil => simp at h
  | cons a l ih =>
    cases i with
    | zero =>
      obtain rfl : a = n := by simpa using h
      simp only [List.set_cons_zero, List.sum_cons]
      omega
    | succ i =>
      have := ih (by simpa using h)
      simp only [List.set_cons_succ, List.sum_cons]
      omega

theorem Rank.step (hparts : List.Forall₂ Describes history values) {n : ℕ}
    (h : Rank model history values w n) (hstep : Steps model history computeInfo timeout w w') :
    ∃ m < n, Rank model history values w' m := by
  obtain ⟨hlen, ranks, hranks, rfl⟩ := h
  cases hstep with
  | @iterate i entries task task' hsub htask hiterate =>
    obtain ⟨entries', ops, hpart⟩ := exists_isPart hparts (List.getElem?_eq_some_iff.mp hsub).1
    obtain rfl := Option.some.inj (hsub.symm.trans hpart.entries)
    obtain ⟨n, hn, hrank⟩ := hranks.task i entries ops task hpart htask
    obtain ⟨m, hlt, hrank'⟩ := hrank.iterate (hpart.describes hparts) hiterate
    have hsum := sum_set_add (m := m) hn
    refine ⟨_, ?_, by simpa using hlen, _, hranks.set hpart hrank', rfl⟩
    dsimp only
    omega
  | @send i ok longest htask =>
    have hi : i < history.length := hlen ▸ (List.getElem?_eq_some_iff.mp htask).1
    obtain ⟨entries, ops, hpart⟩ := exists_isPart hparts hi
    obtain ⟨n, hn, hrank⟩ := hranks.task i entries ops _ hpart htask
    have hsum := sum_set_add (m := 0) hn
    refine ⟨_, ?_, by simpa using hlen, _, hranks.set (n := 0) hpart rfl, rfl⟩
    rw [TaskRank] at hrank
    simp only [List.length_append, List.length_singleton]
    omega
  | @receive result rest hphase hresults =>
    refine ⟨ranks.sum + rest.length + phaseRank (w.receiveResult history computeInfo result rest).phase,
      ?_, ?_, ranks, ?_, ?_⟩
    · have hle : phaseRank (w.receiveResult history computeInfo result rest).phase ≤ 2 := by
        cases (w.receiveResult history computeInfo result rest).phase <;> simp [phaseRank]
      rw [hphase, hresults, List.length_cons, phaseRank]
      omega
    all_goals
      simp only [receiveResult]
      split_ifs
      all_goals first | exact hlen | exact hranks | rfl
  | timeOut hphase =>
    refine ⟨_, ?_, hlen, ranks, hranks, rfl⟩
    rw [hphase]
    simp [phaseRank]
  | collect hphase hresults =>
    refine ⟨_, ?_, hlen, ranks, hranks, rfl⟩
    rw [hresults]
    simp
  | finish hphase =>
    refine ⟨_, ?_, hlen, ranks, hranks, rfl⟩
    rw [hphase]
    simp [finishWith, phaseRank]

/-- The steps of a whole run, where part `i` has the operations `values[i]`. -/
def runBound (values : List (List (I × O))) : ℕ :=
  (values.map fun ops => iterationBound ops.length + 3).sum + 2

theorem rank_start (hparts : List.Forall₂ Describes history values) :
    Rank model history values (start history : Parallel S I O) (runBound values) := by
  refine ⟨by simp [start], values.map fun ops => iterationBound ops.length + 3, ⟨?_, ?_⟩, ?_⟩
  · rw [List.length_map]
    exact hparts.length_eq.symm
  · intro i entries ops task hpart htask
    simp only [start, List.getElem?_replicate] at htask
    split_ifs at htask
    cases htask
    exact ⟨_, by rw [List.getElem?_map, hpart.values]; rfl, rfl⟩
  · simp [runBound, start, phaseRank]

theorem Inv.exists_step (h : w.Inv model history values computeInfo timeout)
    (hparts : List.Forall₂ Describes history values)
    (hsent : w.tasks.countP Task.isSent < history.length) :
    ∃ action, w.step model history computeInfo timeout action ≠ none := by
  obtain ⟨task, hmem, hnot⟩ : ∃ task ∈ w.tasks, task.isSent = false := by
    by_contra hall
    simp only [not_exists, not_and, Bool.not_eq_false] at hall
    have := List.countP_eq_length.mpr hall
    have := h.length_tasks
    omega
  obtain ⟨i, hi, hget⟩ := List.getElem_of_mem hmem
  have htask : w.tasks[i]? = some task := by rw [List.getElem?_eq_getElem hi, hget]
  obtain ⟨entries, ops, hpart⟩ := exists_isPart hparts (h.length_tasks ▸ hi)
  have hinv := h.tasks i entries ops task hpart htask
  cases task with
  | ready =>
    refine ⟨.iterate i, ?_⟩
    simp only [Parallel.step, hpart.entries, htask, Option.bind_eq_bind, Option.bind_some, iterateTask]
    cases startSearch model entries <;> simp
  | running s =>
    refine ⟨.iterate i, ?_⟩
    simp only [Parallel.step, hpart.entries, htask, Option.bind_eq_bind, Option.bind_some, iterateTask]
    rcases iteration model computeInfo entries.length w.kill s with _ | ⟨_ | _⟩ <;> simp
  | finished ok longest => exact ⟨.send i, by simp [Parallel.step, htask]⟩
  | sent => cases hnot
  | panicked => exact absurd hinv id

/-- Nothing can be done only where `checkParallel` has returned. -/
theorem Inv.returned_of_stuck (h : w.Inv model history values computeInfo timeout)
    (hparts : List.Forall₂ Describes history values) (hne : history ≠ [])
    (hstuck : ∀ action, w.step model history computeInfo timeout action = none) :
    ∃ result info, w.phase = .returned result info := by
  have hall : history.length ≤ w.tasks.countP Task.isSent := by
    by_contra hlt
    obtain ⟨action, hstep⟩ := h.exists_step hparts (not_le.mp hlt)
    exact hstep (hstuck action)
  have hsent := h.sent
  cases hphase : w.phase with
  | returned result info => exact ⟨result, info, rfl⟩
  | looping =>
    exfalso
    have hcount := ((h.looping hphase).2.2).resolve_right hne
    have hreceive := hstuck .receive
    cases hresults : w.results with
    | nil => simp only [hresults, List.length_nil] at hsent; omega
    | cons result rest => simp [Parallel.step, hphase, hresults] at hreceive
  | collecting =>
    exfalso
    have hfinish := hstuck (.finish (w.longest.map pointers))
    by_cases hcount : history.length ≤ w.count
    · have hperm : List.Forall₂ (fun order longest => order.Perm (pointers longest))
          (w.longest.map pointers) w.longest := by
        rw [List.forall₂_map_left_iff, List.forall₂_same]
        exact fun longest _ => List.Perm.refl _
      simp [Parallel.step, hphase, hcount, hperm] at hfinish
    · cases hc : computeInfo with
      | false => simp [Parallel.step, hphase, hc] at hfinish
      | true =>
        have hcollect := hstuck .collect
        cases hresults : w.results with
        | nil => simp only [hresults, List.length_nil] at hsent; omega
        | cons result rest => simp [Parallel.step, hphase, hresults, hc, not_le.mp hcount] at hcollect

variable (timeout) in
/-- `checkParallel` without a goroutine: only its timer can end its loop. -/
structure Idle (w : Parallel S I O) : Prop where
  tasks : w.tasks = []
  results : w.results = []
  ok : w.ok = true
  phase : w.phase = .looping ∨ timeout = true ∧ w.timedOut = true
  returned : ∀ result info, w.phase = .returned result info → result = .unknown

theorem idle_start : (start [] : Parallel S I O).Idle timeout where
  tasks := rfl
  results := rfl
  ok := rfl
  phase := .inl rfl
  returned := by simp [start]

theorem Idle.step (h : w.Idle timeout) (hstep : Steps model history computeInfo timeout w w') :
    w'.Idle timeout := by
  cases hstep with
  | iterate _ htask => simp [h.tasks] at htask
  | send htask => simp [h.tasks] at htask
  | receive _ hresults => simp [h.results] at hresults
  | timeOut _ htimeout => exact ⟨h.tasks, h.results, h.ok, .inr ⟨htimeout, rfl⟩, by simp⟩
  | collect _ hresults => simp [h.results] at hresults
  | finish hphase _ =>
    have htimed := h.phase.resolve_left (by simp [hphase])
    refine ⟨h.tasks, h.results, h.ok, .inr htimed, ?_⟩
    intro result info hreturned
    simp only [finishWith, Phase.returned.injEq] at hreturned
    rw [← hreturned.1, h.ok, htimed.2]
    rfl

end DistributedLabs.Porcupine.Parallel
