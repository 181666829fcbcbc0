import DistributedLabs.KvsrvModel
import DistributedLabs.PorcupineProgress

/-!
# Checking histories of operations

`checkOperations` lets the model partition a history and checks the parts in parallel. Its answer is
right for every schedule of the goroutines; it is `Unknown` only after a timeout. If there is a part
to check, every run ends with an answer.
-/

namespace DistributedLabs.Porcupine
open KvsrvModels Linearizability TransitionRuns

variable {S I O : Type}

section Parts
variable (model : FilledModel S I O) (parts : List (List (Entry I O)))
  (histories : List (List (Operation I O))) (computeInfo timeout : Bool)

/-- The runs of `checkParallel`, with a timeout or without one. -/
def CheckParallel : Parallel S I O → Prop :=
  Reaches (Parallel.step model parts computeInfo timeout) anyStep (.start parts)

/-- Every run of `checkParallel` is finite, and it can only stop by returning. -/
structure AlwaysReturns : Prop where
  ends : ∃ n, EndsWithin (Parallel.step model parts computeInfo timeout) n (.start parts)
  returns : ∀ w, CheckParallel model parts computeInfo timeout w →
    (∀ action, w.step model parts computeInfo timeout action = none) →
    ∃ result info, w.phase = .returned result info

/-- `Ok` means that each part is linearizable, `Illegal` that one of them is not; `Unknown` is a
timeout. -/
structure RightResult (result : CheckResult) : Prop where
  ok : result = .ok → ∀ history ∈ histories, IsLinearizable model history
  illegal : result = .illegal → ∃ history ∈ histories, ¬IsLinearizable model history
  unknown : result = .unknown → timeout = true

/-- The sequences returned for each part begin linearizations. Without a timeout each operation of a
beginning is in one that is at least as long. -/
def RightPartials (info : LinearizationInfo I O) : Prop :=
  ∀ (i : ℕ) history, histories[i]? = some history →
    ∃ partials : List (List ℤ), info.partialLinearizations[i]? = some partials ∧
      (∀ seq ∈ partials, ∃ order, seq = order.map Nat.cast ∧ IsPartialLinearization model history order) ∧
      (timeout = false → ∀ order, IsPartialLinearization model history order →
        ∀ j ∈ order, ∃ seq ∈ partials, (j : ℤ) ∈ seq ∧ order.length ≤ seq.length)

variable {model parts histories computeInfo timeout} {w : Parallel S I O}

theorem mem_pointers {longest : List (Option SeqPtr)} {seq : SeqPtr} :
    seq ∈ pointers longest ↔ ∃ i : ℕ, longest[i]? = some (some seq) := by
  rw [pointers, List.mem_dedup, ← List.mem_iff_getElem?]
  simp

theorem AlwaysReturns.exists_returned (h : AlwaysReturns model parts computeInfo timeout) :
    ∃ w result info, CheckParallel model parts computeInfo timeout w ∧ w.phase = .returned result info := by
  obtain ⟨n, hn⟩ := h.ends
  obtain ⟨w, hreach, hstuck⟩ := hn.exists_stuck
  obtain ⟨result, info, hphase⟩ := h.returns w hreach hstuck
  exact ⟨w, result, info, hreach, hphase⟩

/-- The entries of the parts are sorted, and no operation returned before it was called. -/
structure PartsOf (parts : List (List (Entry I O))) (histories : List (List (Operation I O))) : Prop where
  entries : List.Forall₂ EntriesOf parts histories
  times : ∀ history ∈ histories, ∀ op ∈ history, op.call ≤ op.ret

namespace PartsOf

theorem describes (h : PartsOf parts histories) :
    List.Forall₂ Describes parts (histories.map operationValues) := by
  rw [List.forall₂_map_right_iff, List.forall₂_iff_get]
  refine ⟨h.entries.length_eq, fun i hi hi' => ?_⟩
  exact (h.entries.get hi hi').describes (h.times _ (List.get_mem _ _))

theorem isPart_iff (h : PartsOf parts histories) {i : ℕ} {entries : List (Entry I O)} {ops : List (I × O)} :
    IsPart parts (histories.map operationValues) i entries ops ↔
      parts[i]? = some entries ∧
      ∃ history, histories[i]? = some history ∧ EntriesOf entries history ∧ ops = operationValues history := by
  constructor
  · rintro ⟨hentries, hvalues⟩
    rw [List.getElem?_map, Option.map_eq_some_iff] at hvalues
    obtain ⟨history, hhistory, rfl⟩ := hvalues
    obtain ⟨hi, rfl⟩ := List.getElem?_eq_some_iff.mp hentries
    obtain ⟨hi', rfl⟩ := List.getElem?_eq_some_iff.mp hhistory
    exact ⟨hentries, _, hhistory, h.entries.get hi hi', rfl⟩
  · rintro ⟨hentries, history, hhistory, -, rfl⟩
    exact ⟨hentries, by simp [hhistory]⟩

theorem exists_isPart (h : PartsOf parts histories) {i : ℕ} {history : List (Operation I O)}
    (hi : histories[i]? = some history) : ∃ entries, EntriesOf entries history ∧
      IsPart parts (histories.map operationValues) i entries (operationValues history) := by
  obtain ⟨hlt, rfl⟩ := List.getElem?_eq_some_iff.mp hi
  have hlt' : i < parts.length := h.entries.length_eq ▸ hlt
  exact ⟨parts[i], h.entries.get hlt' hlt, List.getElem?_eq_getElem hlt', by simp [hlt]⟩

variable (h : PartsOf parts histories) (hequal : model.EqualSound)
include h hequal

theorem inv (hw : CheckParallel model parts computeInfo timeout w) :
    w.Inv model parts (histories.map operationValues) computeInfo timeout :=
  Parallel.inv_of_reaches h.describes hequal hw

theorem not_panicked (hw : CheckParallel model parts computeInfo timeout w) :
    ∀ task ∈ w.tasks, task ≠ .panicked := by
  rintro task hmem rfl
  have hinv := h.inv hequal hw
  obtain ⟨i, hi, hget⟩ := List.getElem_of_mem hmem
  obtain ⟨entries, ops, hpart⟩ := Porcupine.exists_isPart h.describes (hinv.length_tasks ▸ hi)
  exact hinv.tasks i entries ops .panicked hpart (by rw [List.getElem?_eq_getElem hi, hget])

theorem rightResult (hw : CheckParallel model parts computeInfo timeout w) {result : CheckResult}
    {info : LinearizationInfo I O} (hphase : w.phase = .returned result info) :
    RightResult model histories timeout result := by
  obtain ⟨hok, hillegal, hunknown⟩ := (h.inv hequal hw).verdict hphase
  refine ⟨fun hresult history hmem => ?_, fun hresult => ?_, hunknown⟩
  · obtain ⟨i, hi⟩ := List.mem_iff_getElem?.mp hmem
    obtain ⟨entries, hentries, hpart⟩ := h.exists_isPart hi
    exact hentries.exists_isOrder_iff.mp (hok hresult i _ _ hpart)
  · obtain ⟨i, entries, ops, hpart, hnot⟩ := hillegal hresult
    obtain ⟨-, history, hi, hentries, rfl⟩ := h.isPart_iff.mp hpart
    exact ⟨history, List.mem_of_getElem? hi, fun hlin => hnot (hentries.exists_isOrder_iff.mpr hlin)⟩

theorem alwaysReturns (hne : histories ≠ []) : AlwaysReturns model parts computeInfo timeout where
  ends := ⟨_, endsWithin_of_rank (fun _ _ _ _ hrank hstep =>
    hrank.step h.describes (Parallel.steps_of_step hstep)) (Parallel.rank_start h.describes)⟩
  returns := by
    intro w hw hstuck
    refine (h.inv hequal hw).returned_of_stuck h.describes ?_ hstuck
    rintro rfl
    exact hne (List.forall₂_nil_left_iff.mp h.entries)

theorem rightPartials (hw : CheckParallel model parts true timeout w) {result : CheckResult}
    {info : LinearizationInfo I O} (hphase : w.phase = .returned result info) :
    RightPartials model histories timeout info := by
  intro i history hi
  have hinv := h.inv hequal hw
  obtain ⟨entries, hentries, hpart⟩ := h.exists_isPart hi
  obtain ⟨-, hinfo⟩ := hinv.returned result info hphase
  obtain ⟨hcount, orders, horders, rfl⟩ := hinfo rfl
  have hlt : i < w.tasks.length := by
    rw [hinv.length_tasks]
    exact (List.getElem?_eq_some_iff.mp hpart.entries).1
  have hsent : w.tasks[i]? = some .sent := by
    rw [List.getElem?_eq_getElem hlt, hinv.all_sent hcount (List.getElem?_eq_getElem hlt)]
  obtain ⟨longest, hlongest, hreported⟩ := hinv.reported rfl i _ _ hpart hsent
  obtain ⟨hi', hget⟩ := List.getElem?_eq_some_iff.mp hlongest
  have hi'' : i < orders.length := horders.length_eq ▸ hi'
  have hperm : orders[i].Perm (pointers longest) := by
    have := horders.get hi'' hi'
    rwa [List.get_eq_getElem, List.get_eq_getElem, hget] at this
  refine ⟨orders[i].map SeqPtr.seq, by simp [hi''], ?_, ?_⟩
  · intro seq hseq
    obtain ⟨ptr, hptr, rfl⟩ := List.mem_map.mp hseq
    obtain ⟨j, hj⟩ := mem_pointers.mp (hperm.mem_iff.mp hptr)
    obtain ⟨order, st, hseq, hb, -⟩ := hreported.begins j ptr hj
    exact ⟨order, hseq, hentries.exists_isBeginning_iff.mp ⟨st, hb⟩⟩
  · intro htimeout order horder j hj
    have hkill : w.kill = false := by
      rw [hinv.kill rfl, Bool.eq_false_iff]
      intro htimed
      simp [hinv.timed htimed] at htimeout
    have hnoted := hreported.complete.resolve_left (by simp [hkill])
    obtain ⟨st, hb⟩ := hentries.exists_isBeginning_iff.mpr horder
    obtain ⟨ptr, hptr, hle⟩ := hnoted.atLeast order st hb j hj
    obtain ⟨order', -, hseq, -, hj'⟩ := hnoted.begins j ptr hptr
    refine ⟨ptr.seq, List.mem_map_of_mem (hperm.mem_iff.mpr (mem_pointers.mpr ⟨j, hptr⟩)), ?_, hle⟩
    rw [hseq]
    exact List.mem_map_of_mem hj'

end PartsOf

end Parts

section Operations
variable [DecidableEq S] (model : Model S I O) (sorting : Sorting I O) (history : List (Operation I O))
  (verbose timeout : Bool)

/-- The entries of the parts of a history. -/
def operationParts : List (List (Entry I O)) :=
  ((fillDefault model).partition history).map (makeEntries sorting)

/-- The runs of `checkOperations`. -/
def CheckOperations : Parallel S I O → Prop :=
  CheckParallel (fillDefault model) (operationParts model sorting history) verbose timeout

variable {model sorting history verbose timeout} {w : Parallel S I O}

theorem partsOf_operationParts
    (htimes : ∀ part ∈ (fillDefault model).partition history, ∀ op ∈ part, op.call ≤ op.ret) :
    PartsOf (operationParts model sorting history) ((fillDefault model).partition history) where
  entries := by
    rw [operationParts, List.forall₂_map_left_iff, List.forall₂_same]
    exact fun part _ => entriesOf_makeEntries sorting
  times := htimes

/-- `checkOperations` on a history that has a part: in no schedule does a goroutine panic, every run
ends with an answer, and the answer is right. -/
theorem checkOperations_decides_linearizability (hequal : (fillDefault model).EqualSound)
    (htimes : ∀ part ∈ (fillDefault model).partition history, ∀ op ∈ part, op.call ≤ op.ret)
    (hne : (fillDefault model).partition history ≠ []) :
    AlwaysReturns (fillDefault model) (operationParts model sorting history) verbose timeout ∧
    ∀ w, CheckOperations model sorting history verbose timeout w →
      (∀ task ∈ w.tasks, task ≠ .panicked) ∧
      ∀ result info, w.phase = .returned result info →
        RightResult (fillDefault model) ((fillDefault model).partition history) timeout result := by
  have hparts : PartsOf (operationParts model sorting history) ((fillDefault model).partition history) :=
    partsOf_operationParts htimes
  refine ⟨hparts.alwaysReturns hequal hne, fun w h => ⟨hparts.not_panicked hequal h, ?_⟩⟩
  exact fun result info hphase => hparts.rightResult hequal h hphase

theorem call_le_ret_parts_overlapping : ∀ part ∈ (fillDefault kvModel).partition overlapping,
    ∀ op ∈ part, op.call ≤ op.ret :=
  fun _ hpart op hop => call_le_ret_overlapping op (KvModel.mem_of_mem_partition hpart hop)

theorem partition_overlapping_ne_nil : (fillDefault kvModel).partition overlapping ≠ [] :=
  fun hnil => by simpa [overlapping] using KvModel.partition_eq_nil_iff.mp hnil

theorem checkOperations_decides_overlapping :
    AlwaysReturns (fillDefault kvModel) (operationParts kvModel (insertionSorting _ _) overlapping) true true :=
  (checkOperations_decides_linearizability equalSound_kvModel call_le_ret_parts_overlapping
    partition_overlapping_ne_nil).1

/-- What `CheckOperationsVerbose` returns for each part are beginnings of linearizations. Without a
timeout they are all there are, up to length. -/
theorem checkOperationsVerbose_partials (hequal : (fillDefault model).EqualSound)
    (htimes : ∀ part ∈ (fillDefault model).partition history, ∀ op ∈ part, op.call ≤ op.ret)
    (h : CheckOperations model sorting history true timeout w) {result : CheckResult}
    {info : LinearizationInfo I O} (hphase : w.phase = .returned result info) :
    RightPartials (fillDefault model) ((fillDefault model).partition history) timeout info :=
  (partsOf_operationParts htimes).rightPartials hequal h hphase

theorem checkOperationsVerbose_partials_overlapping : ∃ w result info,
    CheckOperations kvModel (insertionSorting _ _) overlapping true false w ∧
    w.phase = .returned result info ∧
    RightPartials (fillDefault kvModel) ((fillDefault kvModel).partition overlapping) false info := by
  have hreturn : AlwaysReturns (fillDefault kvModel)
      (operationParts kvModel (insertionSorting _ _) overlapping) true false :=
    (partsOf_operationParts call_le_ret_parts_overlapping).alwaysReturns equalSound_kvModel
      partition_overlapping_ne_nil
  obtain ⟨w, result, info, h, hphase⟩ := hreturn.exists_returned
  exact ⟨w, result, info, h, hphase, checkOperationsVerbose_partials equalSound_kvModel
    call_le_ret_parts_overlapping h hphase⟩

/-- If the partition is empty, `checkOperations` does not return before a timeout, and then it does
not know. -/
theorem checkOperations_nothing (hnil : (fillDefault model).partition history = [])
    (h : CheckOperations model sorting history verbose timeout w) :
    (timeout = false → w.phase = .looping) ∧
    ∀ result info, w.phase = .returned result info → result = .unknown := by
  have hidle : w.Idle timeout := by
    apply h.invariant
    · simpa [operationParts, hnil] using Parallel.idle_start
    · intro w action w' hw _ hstep
      exact hw.step (Parallel.steps_of_step hstep)
  exact ⟨fun htimeout => hidle.phase.resolve_right (by simp [htimeout]), hidle.returned⟩

/-- Without operations the timeout is the only way out. -/
theorem checkOperations_no_operation : ∃ w result info,
    CheckOperations kvModel (insertionSorting _ _) [] false true w ∧ w.phase = .returned result info ∧
    result = .unknown := by
  have hnil : (fillDefault kvModel).partition [] = [] := KvModel.partition_eq_nil_iff.mpr rfl
  obtain ⟨w, hreach, hphase⟩ := exists_reaches
    (Parallel.step (fillDefault kvModel) (operationParts kvModel (insertionSorting _ _) []) false true)
    anyStep (.start _) [.timeOut, .finish []] (fun w => ∃ result info, w.phase = .returned result info)
    ⟨_, rfl, _, _, rfl⟩
  obtain ⟨result, info, hphase⟩ := hphase
  exact ⟨w, result, info, hreach, hphase, (checkOperations_nothing hnil hreach).2 result info hphase⟩

end Operations

section KeyValue
variable {sorting : Sorting KvInput KvOutput} {history : List (Operation KvInput KvOutput)}
  {verbose timeout : Bool}

theorem partsOf_kvModel (htimes : ∀ op ∈ history, op.call ≤ op.ret) :
    PartsOf (operationParts kvModel sorting history) ((fillDefault kvModel).partition history) :=
  partsOf_operationParts fun _ hpart op hop => htimes op (KvModel.mem_of_mem_partition hpart hop)

theorem alwaysReturns_kvModel (htimes : ∀ op ∈ history, op.call ≤ op.ret) (hne : history ≠ []) :
    AlwaysReturns (fillDefault kvModel) (operationParts kvModel sorting history) verbose timeout :=
  (partsOf_kvModel htimes).alwaysReturns equalSound_kvModel fun hnil =>
    hne (KvModel.partition_eq_nil_iff.mp hnil)

/-- The parts of a history are linearizable if and only if the whole is. -/
theorem result_kvModel (htimes : ∀ op ∈ history, op.call ≤ op.ret)
    {w : Parallel String KvInput KvOutput} (h : CheckOperations kvModel sorting history verbose timeout w)
    {result : CheckResult} {info : LinearizationInfo KvInput KvOutput}
    (hphase : w.phase = .returned result info) :
    result = .ok ∧ IsLinearizableStore history ∨ result = .illegal ∧ ¬IsLinearizableStore history ∨
      result = .unknown ∧ timeout = true := by
  have hright := (partsOf_kvModel htimes).rightResult equalSound_kvModel h hphase
  rw [isLinearizableStore_iff htimes]
  cases result with
  | unknown => exact .inr (.inr ⟨rfl, hright.unknown rfl⟩)
  | ok => exact .inl ⟨rfl, hright.ok rfl⟩
  | illegal =>
    obtain ⟨part, hpart, hnot⟩ := hright.illegal rfl
    exact .inr (.inl ⟨rfl, fun hall => hnot (hall part hpart)⟩)

/-- `CheckOperations` with `KvModel` and without a timeout: every run on a history with an operation
ends, in whatever schedule, and the answer tells whether the history is one of a key/value store. -/
theorem checkOperations_kvModel (htimes : ∀ op ∈ history, op.call ≤ op.ret) (hne : history ≠ []) :
    AlwaysReturns (fillDefault kvModel) (operationParts kvModel sorting history) verbose false ∧
    ∀ w, CheckOperations kvModel sorting history verbose false w →
      ∀ result info, w.phase = .returned result info →
        result = .ok ∧ IsLinearizableStore history ∨ result = .illegal ∧ ¬IsLinearizableStore history := by
  refine ⟨alwaysReturns_kvModel htimes hne, fun w h result info hphase => ?_⟩
  rcases result_kvModel htimes h hphase with hok | hillegal | ⟨-, htimeout⟩
  · exact .inl hok
  · exact .inr hillegal
  · cases htimeout

theorem checkOperations_kvModel_overlapping :
    AlwaysReturns (fillDefault kvModel) (operationParts kvModel (insertionSorting _ _) overlapping) false false :=
  (checkOperations_kvModel call_le_ret_overlapping (by simp [overlapping])).1

end KeyValue

end DistributedLabs.Porcupine
