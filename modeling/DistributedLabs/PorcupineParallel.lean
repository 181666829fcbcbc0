import DistributedLabs.PorcupineCorrectness
import DistributedLabs.TransitionRuns

/-!
# Checking the parts of a history in parallel

`checkParallel` starts a goroutine for each part of a history and waits for their answers, or for a
timeout. It takes the answers in whatever order they come. At the first part that is not
linearizable it stops the others, unless the longest partial linearizations were asked for. A
goroutine that was stopped answers `false` as well.

A run is any interleaving of the iterations of the goroutines with the receives and the timer of
`checkParallel`.
-/

namespace DistributedLabs.Porcupine
open LinkedNodes MemoisedSearch TransitionRuns

variable {S I O : Type}

inductive CheckResult
  | unknown
  | ok
  | illegal
  deriving DecidableEq

structure LinearizationInfo (I O : Type) where
  history : List (List (Entry I O))
  partialLinearizations : List (List (List ℤ))

/-- A goroutine: its call of `checkSingle`, the answer before it is sent, and its end. -/
inductive Task (S I O : Type)
  | ready
  | running (s : Search S I O)
  | finished (ok : Bool) (longest : List (Option SeqPtr))
  | sent
  | panicked

/-- Where `checkParallel` is: in its loop, behind it, or at its end. -/
inductive Phase (I O : Type)
  | looping
  | collecting
  | returned (result : CheckResult) (info : LinearizationInfo I O)

/-- The variables of `checkParallel` and its goroutines; `results` is the channel. -/
structure Parallel (S I O : Type) where
  tasks : List (Task S I O)
  results : List Bool
  longest : List (List (Option SeqPtr))
  kill : Bool
  ok : Bool
  timedOut : Bool
  count : ℕ
  phase : Phase I O

inductive ParallelAction
  | iterate (i : ℕ)
  | send (i : ℕ)
  | receive
  | timeOut
  | collect
  | finish (orders : List (List SeqPtr))

/-- The pointers that are not nil, each once. -/
def pointers (longest : List (Option SeqPtr)) : List SeqPtr := (longest.filterMap id).dedup

def checkResult (ok timedOut : Bool) : CheckResult :=
  if !ok then .illegal else if timedOut then .unknown else .ok

section
variable (model : FilledModel S I O) (history : List (List (Entry I O))) (computeInfo timeout : Bool)

/-- One iteration of `checkSingle` in a goroutine, or what comes before the first. -/
def iterateTask (kill : Bool) (subhistory : List (Entry I O)) : Task S I O → Option (Task S I O)
  | .ready =>
    match startSearch model subhistory with
    | none => some .panicked
    | some s => some (.running s)
  | .running s =>
    match iteration model computeInfo subhistory.length kill s with
    | none => some .panicked
    | some (.again s') => some (.running s')
    | some (.returned ok longest) => some (.finished ok longest)
  | _ => none

namespace Parallel

def start : Parallel S I O where
  tasks := List.replicate history.length .ready
  results := []
  longest := List.replicate history.length []
  kill := false
  ok := true
  timedOut := false
  count := 0
  phase := .looping

/-- The first case of the `select` of `checkParallel`. -/
def receiveResult (w : Parallel S I O) (result : Bool) (rest : List Bool) : Parallel S I O :=
  let count := w.count + 1
  let ok := w.ok && result
  if !ok && !computeInfo then { w with results := rest, count, ok, kill := true, phase := .collecting }
  else if count ≥ history.length then { w with results := rest, count, ok, phase := .collecting }
  else { w with results := rest, count, ok }

/-- What is behind the loop, once all answers are there if they are waited for. The pointers of a
goroutine are keys of a map, so their order is any. -/
def finishWith (w : Parallel S I O) (orders : List (List SeqPtr)) : Parallel S I O :=
  let info : LinearizationInfo I O :=
    if computeInfo then ⟨history, orders.map fun order => order.map SeqPtr.seq⟩ else ⟨[], []⟩
  { w with phase := .returned (checkResult w.ok w.timedOut) info }

def step (w : Parallel S I O) : ParallelAction → Option (Parallel S I O)
  | .iterate i => do
    let task ← iterateTask model computeInfo w.kill (← history[i]?) (← w.tasks[i]?)
    return { w with tasks := w.tasks.set i task }
  | .send i =>
    match w.tasks[i]? with
    | some (.finished ok longest) => some { w with
        tasks := w.tasks.set i .sent
        longest := w.longest.set i longest
        results := w.results ++ [ok] }
    | _ => none
  | .receive =>
    match w.phase, w.results with
    | .looping, result :: rest => some (w.receiveResult history computeInfo result rest)
    | _, _ => none
  | .timeOut =>
    match w.phase with
    | .looping =>
      if timeout then some { w with timedOut := true, kill := true, phase := .collecting } else none
    | _ => none
  | .collect =>
    match w.phase, w.results with
    | .collecting, _ :: rest =>
      if computeInfo ∧ w.count < history.length then some { w with results := rest, count := w.count + 1 }
      else none
    | _, _ => none
  | .finish orders =>
    match w.phase with
    | .collecting =>
      if computeInfo → history.length ≤ w.count ∧
          List.Forall₂ (fun order longest => order.Perm (pointers longest)) orders w.longest then
        some (w.finishWith history computeInfo orders)
      else none
    | _ => none

/-- What a step can do. -/
inductive Steps : Parallel S I O → Parallel S I O → Prop
  | iterate {w : Parallel S I O} {i : ℕ} {subhistory : List (Entry I O)} {task task' : Task S I O}
      (hsub : history[i]? = some subhistory) (htask : w.tasks[i]? = some task)
      (hiterate : iterateTask model computeInfo w.kill subhistory task = some task') :
      Steps w { w with tasks := w.tasks.set i task' }
  | send {w : Parallel S I O} {i : ℕ} {ok : Bool} {longest : List (Option SeqPtr)}
      (htask : w.tasks[i]? = some (.finished ok longest)) :
      Steps w { w with
        tasks := w.tasks.set i .sent
        longest := w.longest.set i longest
        results := w.results ++ [ok] }
  | receive {w : Parallel S I O} {result : Bool} {rest : List Bool} (hphase : w.phase = .looping)
      (hresults : w.results = result :: rest) :
      Steps w (w.receiveResult history computeInfo result rest)
  | timeOut {w : Parallel S I O} (hphase : w.phase = .looping) (htimeout : timeout = true) :
      Steps w { w with timedOut := true, kill := true, phase := .collecting }
  | collect {w : Parallel S I O} {result : Bool} {rest : List Bool} (hphase : w.phase = .collecting)
      (hresults : w.results = result :: rest) (hcompute : computeInfo = true)
      (hcount : w.count < history.length) :
      Steps w { w with results := rest, count := w.count + 1 }
  | finish {w : Parallel S I O} {orders : List (List SeqPtr)} (hphase : w.phase = .collecting)
      (horders : computeInfo = true → history.length ≤ w.count ∧
        List.Forall₂ (fun order longest => order.Perm (pointers longest)) orders w.longest) :
      Steps w (w.finishWith history computeInfo orders)

variable {model history computeInfo timeout}

theorem steps_of_step {w w' : Parallel S I O} {action : ParallelAction}
    (h : w.step model history computeInfo timeout action = some w') :
    Steps model history computeInfo timeout w w' := by
  cases action with
  | iterate i =>
    simp only [step, Option.bind_eq_bind, Option.bind_eq_some_iff, Option.pure_def,
      Option.some.injEq] at h
    obtain ⟨sub, hsub, task, htask, task', hiterate, rfl⟩ := h
    exact .iterate hsub htask hiterate
  | send i =>
    simp only [step] at h
    split at h
    · cases h
      exact .send ‹_›
    · cases h
  | receive =>
    simp only [step] at h
    split at h
    · cases h
      exact .receive ‹_› ‹_›
    · cases h
  | timeOut =>
    simp only [step] at h
    split at h
    · split_ifs at h with htimeout
      cases h
      exact .timeOut ‹_› htimeout
    · cases h
  | collect =>
    simp only [step] at h
    split at h
    · split_ifs at h with hcollect
      cases h
      exact .collect ‹_› ‹_› hcollect.1 hcollect.2
    · cases h
  | finish orders =>
    simp only [step] at h
    split at h
    · split_ifs at h with horders
      cases h
      exact .finish ‹_› horders
    · cases h

end Parallel

end

variable {model : FilledModel S I O} {entries : List (Entry I O)} {ops : List (I × O)}
  {history : List (List (Entry I O))} {values : List (List (I × O))} {kill computeInfo timeout : Bool}

variable (model entries ops kill) in
/-- What was noted is right, and complete unless the goroutine was stopped. -/
structure Reported (longest : List (Option SeqPtr)) : Prop where
  begins : ∀ i seq, longest[i]? = some (some seq) → ∃ order st,
    seq.seq = order.map Nat.cast ∧ IsBeginning model entries ops order st ∧ i ∈ order
  complete : kill = true ∨ LongestNoted model entries ops longest

variable (model entries ops kill) in
/-- A positive answer is right, and so is a negative one of a goroutine that was not stopped. -/
structure Answered (ok : Bool) : Prop where
  positive : ok = true → ∃ order, IsOrder model entries ops order
  negative : ok = false → kill = true ∨ ¬∃ order, IsOrder model entries ops order

variable (model entries ops kill computeInfo) in
/-- The state of a goroutine. -/
def TaskInv : Task S I O → Prop
  | .ready => True
  | .running s => ∃ a, Checking model entries ops s a ∧ (computeInfo = true → Noted model entries ops s a)
  | .finished ok longest => Answered model entries ops kill ok ∧
      (computeInfo = true → Reported model entries ops kill longest)
  | .sent => True
  | .panicked => False

theorem Reported.stop {longest : List (Option SeqPtr)} (h : Reported model entries ops kill longest) :
    Reported model entries ops true longest :=
  ⟨h.begins, .inl rfl⟩

theorem TaskInv.stop {task : Task S I O} (h : TaskInv model entries ops kill computeInfo task) :
    TaskInv model entries ops true computeInfo task := by
  cases task with
  | finished ok longest => exact ⟨⟨h.1.positive, fun _ => .inl rfl⟩, fun hc => (h.2 hc).stop⟩
  | ready => trivial
  | running s => exact h
  | sent => trivial
  | panicked => exact h

theorem TaskInv.iterate (hd : Describes entries ops) (hequal : model.EqualSound) {task task' : Task S I O}
    (h : TaskInv model entries ops kill computeInfo task)
    (hiterate : iterateTask model computeInfo kill entries task = some task') :
    TaskInv model entries ops kill computeInfo task' := by
  cases task with
  | ready =>
    obtain ⟨s, hs, hrefines, hlongest⟩ := @exists_startSearch S _ _ model _ _ hd
    simp only [iterateTask, hs, Option.some.injEq] at hiterate
    subst hiterate
    exact ⟨_, checking_start hrefines, fun _ => noted_start hlongest⟩
  | running s =>
    obtain ⟨a, hc, hnoted⟩ := h
    have hiter := hc.refines.iteration computeInfo hd
    cases hstep : (problem model entries ops).step a with
    | found =>
      rw [hstep] at hiter
      simp only [iterateTask, hiter kill, Option.some.injEq] at hiterate
      subst hiterate
      refine ⟨⟨fun _ => hc.exists_order hd hstep, by simp⟩, fun _ => ⟨?_, .inr (hc.longestNoted hd hstep)⟩⟩
      exact (hc.longestNoted hd hstep).begins
    | exhausted =>
      rw [hstep] at hiter
      simp only [iterateTask, hiter kill, Option.some.injEq] at hiterate
      subst hiterate
      refine ⟨⟨by simp, fun _ => .inr (hc.not_exists_order hd hequal hstep)⟩, fun hcompute => ⟨?_, .inr ?_⟩⟩
      · exact (hnoted hcompute).begins
      · exact (hnoted hcompute).longestNoted hd hequal hc hstep
    | again a' =>
      rw [hstep] at hiter
      obtain ⟨hkilled, s', hs', hrefines, hlongest⟩ := hiter
      cases kill with
      | true =>
        simp only [iterateTask, hkilled, Option.some.injEq] at hiterate
        subst hiterate
        exact ⟨⟨by simp, fun _ => .inl rfl⟩, fun hcompute => ⟨(hnoted hcompute).begins, .inl rfl⟩⟩
      | false =>
        simp only [iterateTask, hs', Option.some.injEq] at hiterate
        subst hiterate
        refine ⟨a', (hc.step hrefines hstep).1, fun hcompute => ?_⟩
        subst hcompute
        exact (hnoted rfl).step hd hc hstep hlongest
  | finished ok longest => cases hiterate
  | sent => cases hiterate
  | panicked => cases hiterate

/-- The parts of a history and the operations in them. -/
structure IsPart (history : List (List (Entry I O))) (values : List (List (I × O))) (i : ℕ)
    (entries : List (Entry I O)) (ops : List (I × O)) : Prop where
  entries : history[i]? = some entries
  values : values[i]? = some ops

theorem IsPart.describes {i : ℕ} (h : IsPart history values i entries ops)
    (hparts : List.Forall₂ Describes history values) : Describes entries ops := by
  obtain ⟨hi, rfl⟩ := List.getElem?_eq_some_iff.mp h.entries
  obtain ⟨hi', rfl⟩ := List.getElem?_eq_some_iff.mp h.values
  exact hparts.get hi hi'

theorem exists_isPart (hparts : List.Forall₂ Describes history values) {i : ℕ} (hi : i < history.length) :
    ∃ entries ops, IsPart history values i entries ops :=
  ⟨_, _, List.getElem?_eq_getElem hi, List.getElem?_eq_getElem (hparts.length_eq ▸ hi)⟩

/-- One of the parts is not linearizable. -/
def SomeIllegal (model : FilledModel S I O) (history : List (List (Entry I O)))
    (values : List (List (I × O))) : Prop :=
  ∃ i entries ops, IsPart history values i entries ops ∧ ¬∃ order, IsOrder model entries ops order

def Task.isSent : Task S I O → Bool
  | .sent => true
  | _ => false

namespace Parallel

variable {w w' : Parallel S I O}

variable (model history values computeInfo timeout) in
/-- The answers in the channel and those received are right. While the loop runs no goroutine was
stopped; it ends with all answers, with a negative one, or with the timeout. -/
structure Inv (w : Parallel S I O) : Prop where
  length_tasks : w.tasks.length = history.length
  length_longest : w.longest.length = history.length
  tasks : ∀ i entries ops task, IsPart history values i entries ops → w.tasks[i]? = some task →
    TaskInv model entries ops w.kill computeInfo task
  sent : w.tasks.countP Task.isSent = w.results.length + w.count
  positive : ∀ i entries ops, IsPart history values i entries ops → w.tasks[i]? = some .sent →
    (∃ order, IsOrder model entries ops order) ∨ false ∈ w.results ∨ w.ok = false ∨ w.kill = true
  negative : false ∈ w.results → w.kill = true ∨ SomeIllegal model history values
  ok : w.ok = false → SomeIllegal model history values
  looping : w.phase = .looping → w.kill = false ∧ w.timedOut = false ∧
    (w.count < history.length ∨ history = [])
  closed : w.phase ≠ .looping → w.timedOut = false → w.ok = true →
    w.kill = false ∧ history.length ≤ w.count
  timed : w.timedOut = true → timeout = true
  reported : computeInfo = true → ∀ i entries ops, IsPart history values i entries ops →
    w.tasks[i]? = some .sent →
      ∃ longest, w.longest[i]? = some longest ∧ Reported model entries ops w.kill longest
  kill : computeInfo = true → w.kill = w.timedOut
  returned : ∀ result info, w.phase = .returned result info →
    result = checkResult w.ok w.timedOut ∧ (computeInfo = true → history.length ≤ w.count ∧
      ∃ orders : List (List SeqPtr),
        List.Forall₂ (fun order longest => order.Perm (pointers longest)) orders w.longest ∧
        info = ⟨history, orders.map fun order => order.map SeqPtr.seq⟩)

theorem inv_start : (start history : Parallel S I O).Inv model history values computeInfo timeout where
  length_tasks := by simp [start]
  length_longest := by simp [start]
  tasks := by
    intro i entries ops task _ htask
    simp only [start, List.getElem?_replicate] at htask
    split_ifs at htask
    cases htask
    trivial
  sent := by simp [start, List.countP_replicate, Task.isSent]
  positive := by
    intro i entries ops _ htask
    simp only [start, List.getElem?_replicate] at htask
    split_ifs at htask
    cases htask
  negative := by simp [start]
  ok := by simp [start]
  looping := by
    intro _
    refine ⟨rfl, rfl, ?_⟩
    cases history <;> simp [start]
  closed := by simp [start]
  timed := by simp [start]
  reported := by
    intro _ i entries ops _ htask
    simp only [start, List.getElem?_replicate] at htask
    split_ifs at htask
    cases htask
  kill := by simp [start]
  returned := by simp [start]

/-- Where all answers were received, each goroutine has sent one. -/
theorem Inv.all_sent (h : w.Inv model history values computeInfo timeout)
    (hcount : history.length ≤ w.count) {i : ℕ} {task : Task S I O} (htask : w.tasks[i]? = some task) :
    task = .sent := by
  have hall : w.tasks.countP Task.isSent = w.tasks.length := by
    have hle : w.tasks.countP Task.isSent ≤ w.tasks.length := List.countP_le_length
    have := h.sent
    have := h.length_tasks
    omega
  have hsent := List.countP_eq_length.mp hall task (List.mem_of_getElem? htask)
  cases task with
  | sent => rfl
  | _ => cases hsent

theorem not_isSent_of_iterateTask {task task' : Task S I O}
    (h : iterateTask model computeInfo kill entries task = some task') :
    task.isSent = false ∧ task'.isSent = false := by
  cases task with
  | ready =>
    simp only [iterateTask] at h
    split at h <;> cases h <;> exact ⟨rfl, rfl⟩
  | running s =>
    simp only [iterateTask] at h
    split at h <;> cases h <;> exact ⟨rfl, rfl⟩
  | finished ok longest => cases h
  | sent => cases h
  | panicked => cases h

theorem Inv.iterate (h : w.Inv model history values computeInfo timeout)
    (hparts : List.Forall₂ Describes history values) (hequal : model.EqualSound) {i : ℕ}
    {entries : List (Entry I O)} {task task' : Task S I O} (hsub : history[i]? = some entries)
    (htask : w.tasks[i]? = some task)
    (hiterate : iterateTask model computeInfo w.kill entries task = some task') :
    ({ w with tasks := w.tasks.set i task' } : Parallel S I O).Inv model history values computeInfo
      timeout := by
  obtain ⟨hnot, hnot'⟩ := not_isSent_of_iterateTask hiterate
  obtain ⟨hi, hget⟩ := List.getElem?_eq_some_iff.mp htask
  have hold : ∀ j : ℕ, (w.tasks.set i task')[j]? = some .sent → w.tasks[j]? = some .sent := by
    intro j hj
    rw [List.getElem?_set] at hj
    split_ifs at hj with hij
    · cases hj
      cases hnot'
    · exact hj
  refine ⟨by simpa using h.length_tasks, h.length_longest, ?_, ?_, ?_, h.negative, h.ok, h.looping,
    h.closed, h.timed, ?_, h.kill, h.returned⟩
  · intro j entries' ops t hpart ht
    rw [List.getElem?_set] at ht
    split_ifs at ht with hij
    · subst hij
      cases ht
      obtain rfl := Option.some.inj (hsub.symm.trans hpart.entries)
      exact (h.tasks i entries ops task hpart htask).iterate (hpart.describes hparts) hequal hiterate
    · exact h.tasks j entries' ops t hpart ht
  · rw [List.countP_set hi, hget, hnot, hnot']
    simpa using h.sent
  · exact fun j entries' ops hpart hj => h.positive j entries' ops hpart (hold j hj)
  · exact fun hc j entries' ops hpart hj => h.reported hc j entries' ops hpart (hold j hj)

theorem Inv.send (h : w.Inv model history values computeInfo timeout)
    (hparts : List.Forall₂ Describes history values) {i : ℕ} {ok : Bool}
    {longest : List (Option SeqPtr)} (htask : w.tasks[i]? = some (.finished ok longest)) :
    ({ w with
      tasks := w.tasks.set i .sent
      longest := w.longest.set i longest
      results := w.results ++ [ok] } : Parallel S I O).Inv model history values computeInfo timeout := by
  obtain ⟨hi, hget⟩ := List.getElem?_eq_some_iff.mp htask
  have hi' : i < history.length := h.length_tasks ▸ hi
  refine ⟨by simpa using h.length_tasks, by simpa using h.length_longest, ?_, ?_, ?_, ?_, h.ok,
    h.looping, h.closed, h.timed, ?_, h.kill, ?_⟩
  · intro j entries ops t hpart ht
    rw [List.getElem?_set] at ht
    split_ifs at ht
    · cases ht
      trivial
    · exact h.tasks j entries ops t hpart ht
  · rw [List.countP_set hi, hget]
    have := h.sent
    simp only [Task.isSent, Bool.false_eq_true, ↓reduceIte, List.length_append, List.length_singleton]
    omega
  · intro j entries ops hpart hj
    rw [List.getElem?_set] at hj
    split_ifs at hj with hij
    · subst hij
      have hanswered := (h.tasks i entries ops _ hpart htask).1
      cases ok with
      | true => exact .inl (hanswered.positive rfl)
      | false => exact .inr (.inl (by simp))
    · rcases h.positive j entries ops hpart hj with horder | hfalse | hrest
      · exact .inl horder
      · exact .inr (.inl (List.mem_append_left _ hfalse))
      · exact .inr (.inr hrest)
  · intro hfalse
    rcases List.mem_append.mp hfalse with hfalse | hfalse
    · exact h.negative hfalse
    · obtain rfl := List.mem_singleton.mp hfalse
      obtain ⟨entries, ops, hpart⟩ := exists_isPart hparts hi'
      exact ((h.tasks i entries ops _ hpart htask).1.negative rfl).imp id fun hnot =>
        ⟨i, entries, ops, hpart, hnot⟩
  · intro hc j entries ops hpart hj
    rw [List.getElem?_set] at hj ⊢
    split_ifs at hj with hij
    · subst hij
      rw [if_pos rfl, if_pos (h.length_longest.symm ▸ hi')]
      exact ⟨longest, rfl, (h.tasks i entries ops _ hpart htask).2 hc⟩
    · rw [if_neg hij]
      exact h.reported hc j entries ops hpart hj
  · intro result info hphase
    obtain ⟨hresult, hinfo⟩ := h.returned result info hphase
    refine ⟨hresult, fun hc => ?_⟩
    cases h.all_sent (hinfo hc).1 htask

theorem Inv.receive (h : w.Inv model history values computeInfo timeout) {result : Bool}
    {rest : List Bool} (hphase : w.phase = .looping) (hresults : w.results = result :: rest) :
    (w.receiveResult history computeInfo result rest).Inv model history values computeInfo timeout := by
  obtain ⟨hkill, htimed, hcount⟩ := h.looping hphase
  have hillegal : false ∈ w.results → SomeIllegal model history values := fun hfalse =>
    (h.negative hfalse).resolve_left (by simp [hkill])
  have hnegative : false ∈ rest → SomeIllegal model history values := fun hfalse =>
    hillegal (hresults ▸ List.mem_cons_of_mem _ hfalse)
  have hok : (w.ok && result) = false → SomeIllegal model history values := by
    rw [Bool.and_eq_false_iff]
    rintro (hfalse | rfl)
    · exact h.ok hfalse
    · exact hillegal (hresults ▸ List.mem_cons_self)
  have hpositive : ∀ i entries ops, IsPart history values i entries ops → w.tasks[i]? = some .sent →
      (∃ order, IsOrder model entries ops order) ∨ false ∈ rest ∨ (w.ok && result) = false := by
    intro i entries ops hpart htask
    rcases h.positive i entries ops hpart htask with horder | hfalse | hfalse | hstopped
    · exact .inl horder
    · rw [hresults] at hfalse
      rcases List.mem_cons.mp hfalse with rfl | hfalse
      · exact .inr (.inr (by simp))
      · exact .inr (.inl hfalse)
    · exact .inr (.inr (by simp [hfalse]))
    · simp [hkill] at hstopped
  have hsent : w.tasks.countP Task.isSent = rest.length + (w.count + 1) := by
    have := h.sent
    rw [hresults, List.length_cons] at this
    omega
  simp only [receiveResult]
  split_ifs with hstop hlast
  · simp only [Bool.and_eq_true, Bool.not_eq_true'] at hstop
    exact {
      length_tasks := h.length_tasks
      length_longest := h.length_longest
      tasks := fun i entries ops task hpart htask => (h.tasks i entries ops task hpart htask).stop
      sent := hsent
      positive := fun _ _ _ _ _ => .inr (.inr (.inr rfl))
      negative := fun _ => .inl rfl
      ok := hok
      looping := by simp
      closed := by simp [hstop.1]
      timed := h.timed
      reported := by simp [hstop.2]
      kill := by simp [hstop.2]
      returned := by simp }
  · exact {
      length_tasks := h.length_tasks
      length_longest := h.length_longest
      tasks := h.tasks
      sent := hsent
      positive := fun i entries ops hpart htask =>
        (hpositive i entries ops hpart htask).imp id (·.imp id .inl)
      negative := fun hfalse => .inr (hnegative hfalse)
      ok := hok
      looping := by simp
      closed := fun _ _ _ => ⟨hkill, hlast⟩
      timed := h.timed
      reported := h.reported
      kill := h.kill
      returned := by simp }
  · exact {
      length_tasks := h.length_tasks
      length_longest := h.length_longest
      tasks := h.tasks
      sent := hsent
      positive := fun i entries ops hpart htask =>
        (hpositive i entries ops hpart htask).imp id (·.imp id .inl)
      negative := fun hfalse => .inr (hnegative hfalse)
      ok := hok
      looping := fun _ => ⟨hkill, htimed, .inl (not_le.mp hlast)⟩
      closed := fun hnot => absurd hphase hnot
      timed := h.timed
      reported := h.reported
      kill := h.kill
      returned := by simp [hphase] }

theorem Inv.timeOut (h : w.Inv model history values computeInfo timeout) (htimeout : timeout = true) :
    ({ w with timedOut := true, kill := true, phase := .collecting } : Parallel S I O).Inv model history
      values computeInfo timeout where
  length_tasks := h.length_tasks
  length_longest := h.length_longest
  tasks := fun i entries ops task hpart htask => (h.tasks i entries ops task hpart htask).stop
  sent := h.sent
  positive := fun _ _ _ _ _ => .inr (.inr (.inr rfl))
  negative := fun _ => .inl rfl
  ok := h.ok
  looping := by simp
  closed := by simp
  timed := fun _ => htimeout
  reported := by
    intro hc i entries ops hpart htask
    obtain ⟨longest, hlongest, hreported⟩ := h.reported hc i entries ops hpart htask
    exact ⟨longest, hlongest, hreported.stop⟩
  kill := fun _ => rfl
  returned := by simp

theorem Inv.collect (h : w.Inv model history values computeInfo timeout) {result : Bool}
    {rest : List Bool} (hphase : w.phase = .collecting) (hresults : w.results = result :: rest)
    (hcompute : computeInfo = true) (hcount : w.count < history.length) :
    ({ w with results := rest, count := w.count + 1 } : Parallel S I O).Inv model history values
      computeInfo timeout := by
  have hnot : w.phase ≠ .looping := by simp [hphase]
  have hend : w.ok = false ∨ w.kill = true := by
    by_contra hcon
    simp only [not_or, Bool.not_eq_false, Bool.not_eq_true] at hcon
    have := h.closed hnot (by rw [← h.kill hcompute, hcon.2]) hcon.1
    omega
  refine ⟨h.length_tasks, h.length_longest, h.tasks, ?_, fun _ _ _ _ _ => .inr (.inr hend), ?_, h.ok,
    fun hloop => absurd hloop hnot, ?_, h.timed, h.reported, h.kill, by simp [hphase]⟩
  · have := h.sent
    rw [hresults, List.length_cons] at this
    change w.tasks.countP Task.isSent = rest.length + (w.count + 1)
    omega
  · intro hfalse
    exact h.negative (hresults ▸ List.mem_cons_of_mem _ hfalse)
  · intro _ htimed hok
    have := h.closed hnot htimed hok
    omega

theorem Inv.finish (h : w.Inv model history values computeInfo timeout)
    {orders : List (List SeqPtr)} (hphase : w.phase = .collecting)
    (horders : computeInfo = true → history.length ≤ w.count ∧
      List.Forall₂ (fun order longest => order.Perm (pointers longest)) orders w.longest) :
    (w.finishWith history computeInfo orders).Inv model history values computeInfo timeout := by
  refine ⟨h.length_tasks, h.length_longest, h.tasks, h.sent, h.positive, h.negative, h.ok,
    by simp [finishWith], fun _ => h.closed (by simp [hphase]), h.timed, h.reported, h.kill, ?_⟩
  intro result info hreturned
  simp only [finishWith, Phase.returned.injEq] at hreturned
  obtain ⟨rfl, rfl⟩ := hreturned
  refine ⟨rfl, fun hc => ⟨(horders hc).1, orders, (horders hc).2, ?_⟩⟩
  rw [if_pos hc]

theorem Inv.step (h : w.Inv model history values computeInfo timeout)
    (hparts : List.Forall₂ Describes history values) (hequal : model.EqualSound)
    (hstep : Steps model history computeInfo timeout w w') :
    w'.Inv model history values computeInfo timeout := by
  cases hstep with
  | iterate hsub htask hiterate => exact h.iterate hparts hequal hsub htask hiterate
  | send htask => exact h.send hparts htask
  | receive hphase hresults => exact h.receive hphase hresults
  | timeOut hphase htimeout => exact h.timeOut htimeout
  | collect hphase hresults hcompute hcount => exact h.collect hphase hresults hcompute hcount
  | finish hphase horders => exact h.finish hphase horders

theorem inv_of_reaches (hparts : List.Forall₂ Describes history values) (hequal : model.EqualSound)
    (h : Reaches (step model history computeInfo timeout) anyStep (start history) w) :
    w.Inv model history values computeInfo timeout :=
  h.invariant inv_start fun _ _ _ hinv _ hstep => hinv.step hparts hequal (steps_of_step hstep)

/-- What `checkParallel` answers. -/
theorem Inv.verdict (h : w.Inv model history values computeInfo timeout) {result : CheckResult}
    {info : LinearizationInfo I O} (hphase : w.phase = .returned result info) :
    (result = .ok → ∀ i entries ops, IsPart history values i entries ops →
      ∃ order, IsOrder model entries ops order) ∧
    (result = .illegal → SomeIllegal model history values) ∧ (result = .unknown → timeout = true) := by
  obtain ⟨rfl, -⟩ := h.returned result info hphase
  have hnot : w.phase ≠ .looping := by simp [hphase]
  cases hok : w.ok with
  | false => exact ⟨by simp [checkResult], fun _ => h.ok hok, by simp [checkResult]⟩
  | true =>
    cases htimed : w.timedOut with
    | true => exact ⟨by simp [checkResult], by simp [checkResult], fun _ => h.timed htimed⟩
    | false =>
      obtain ⟨hkill, hcount⟩ := h.closed hnot htimed hok
      refine ⟨fun _ i entries ops hpart => ?_, by simp [checkResult], by simp [checkResult]⟩
      have hi : i < w.tasks.length := by
        rw [h.length_tasks]
        exact (List.getElem?_eq_some_iff.mp hpart.entries).1
      have hsent : w.tasks[i]? = some .sent := by
        rw [List.getElem?_eq_getElem hi, h.all_sent hcount (List.getElem?_eq_getElem hi)]
      have hempty : w.results = [] := by
        have hle : w.tasks.countP Task.isSent ≤ w.tasks.length := List.countP_le_length
        have := h.sent
        have := h.length_tasks
        exact List.length_eq_zero_iff.mp (by omega)
      simpa [hempty, hok, hkill] using h.positive i entries ops hpart hsent

end Parallel

end DistributedLabs.Porcupine
