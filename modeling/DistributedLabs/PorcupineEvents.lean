import DistributedLabs.PorcupineOperations

/-!
# Checking histories of events

`checkEvents` is given calls and returns in the order they happened in, without times. The place of
an event is taken as its time and the operations are numbered anew, by their first events. The
answer is right for the operations that the events belong to, whatever numbers they had.
-/

namespace DistributedLabs.Porcupine
open KvsrvModels Linearizability

variable {S I O : Type}

/-- The events of operations that have numbers, with their times. -/
def timedEvents (ops : List (Operation I O × ℤ)) : List (Event I O × ℤ) :=
  ops.flatMap fun (op, id) =>
    [(⟨op.clientId, .callEvent, .input op.input, id⟩, op.call),
      (⟨op.clientId, .returnEvent, .output op.output, id⟩, op.ret)]

/-- `events` has the calls and returns of operations with different numbers, each event at the place
that is its time. -/
structure EventsOf (events : List (Event I O)) (ops : List (Operation I O × ℤ)) : Prop where
  numbers : (ops.map Prod.snd).Nodup
  times : ∀ op ∈ ops, op.1.call ≤ op.1.ret
  perm : (events.zipIdx.map fun x => (x.1, (x.2 : ℤ))).Perm (timedEvents ops)

/-- The numbers of the calls. -/
def callIds (events : List (Event I O)) : List ℤ :=
  (events.filter fun e => e.kind = .callEvent).map Event.id

section Renumber
variable {events : List (Event I O)} {e : Event I O}

theorem callIds_cons_call (h : e.kind = .callEvent) : callIds (e :: events) = e.id :: callIds events := by
  simp [callIds, h]

theorem callIds_cons_return (h : e.kind = .returnEvent) : callIds (e :: events) = callIds events := by
  simp [callIds, h]

/-- Where no operation returns before it was called, the new number of an operation is the place of
its call among the calls. -/
theorem renumberFrom_eq {m : ℤ → Option ℕ} {seen : List ℤ}
    (hm : ∀ x, m x = if x ∈ seen then some (seen.idxOf x) else none)
    (hnodup : (seen ++ callIds events).Nodup)
    (hreturn : ∀ us e vs, events = us ++ e :: vs → e.kind = .returnEvent → e.id ∈ seen ++ callIds us) :
    renumberFrom m seen.length events =
      events.map fun e => { e with id := (seen ++ callIds events).idxOf e.id } := by
  induction events generalizing m seen with
  | nil => rfl
  | cons e events ih =>
    cases hkind : e.kind with
    | callEvent =>
      rw [callIds_cons_call hkind] at hnodup ⊢
      have hfresh : e.id ∉ seen := fun hmem =>
        (List.nodup_append'.mp hnodup).2.2 hmem List.mem_cons_self
      have htail := @ih (Function.update m e.id (some seen.length)) (seen ++ [e.id]) (by
        intro x
        rcases eq_or_ne x e.id with rfl | hne
        · simp [List.idxOf_append, hfresh]
        · rw [Function.update_of_ne hne, hm]
          by_cases hx : x ∈ seen <;> simp [hx, hne, List.idxOf_append_of_mem]) (by simpa using hnodup) (by
        rintro us r vs rfl hr
        have := hreturn (e :: us) r vs rfl hr
        rwa [callIds_cons_call hkind, List.append_cons] at this)
      rw [List.length_append, List.length_singleton] at htail
      simp only [renumberFrom, hm, hfresh, if_false, htail, List.append_assoc, List.singleton_append,
        List.map_cons, List.cons.injEq, and_true]
      simp [List.idxOf_append, hfresh]
    | returnEvent =>
      have hseen : e.id ∈ seen := by simpa [callIds] using hreturn [] e events rfl hkind
      rw [callIds_cons_return hkind] at hnodup ⊢
      have htail := @ih m seen hm hnodup (by
        rintro us r vs rfl hr
        have := hreturn (e :: us) r vs rfl hr
        rwa [callIds_cons_return hkind] at this)
      simp only [renumberFrom, hm, hseen, if_true, htail, List.map_cons]
      rw [List.idxOf_append_of_mem hseen]

end Renumber

section Entries
variable {events : List (Event I O)} {ops : List (Operation I O × ℤ)}

theorem mem_timedEvents {x : Event I O × ℤ} : x ∈ timedEvents ops ↔ ∃ op ∈ ops,
    x = (⟨op.1.clientId, .callEvent, .input op.1.input, op.2⟩, op.1.call) ∨
    x = (⟨op.1.clientId, .returnEvent, .output op.1.output, op.2⟩, op.1.ret) := by
  simp [timedEvents]

theorem EventsOf.mem_iff (h : EventsOf events ops) {e : Event I O} {i : ℕ} :
    events[i]? = some e ↔ (e, (i : ℤ)) ∈ timedEvents ops := by
  rw [← h.perm.mem_iff, List.mem_map, Prod.exists]
  simp only [List.mem_zipIdx_iff_getElem?, Prod.mk.injEq, Nat.cast_inj]
  constructor
  · exact fun hi => ⟨e, i, hi, rfl, rfl⟩
  · rintro ⟨e', i', hi, rfl, rfl⟩
    exact hi

theorem EventsOf.callIds_perm (h : EventsOf events ops) : (callIds events).Perm (ops.map Prod.snd) := by
  have hcalls := ((h.perm.map Prod.fst).filter fun e => e.kind = .callEvent).map Event.id
  have hleft : (events.zipIdx.map fun x => (x.1, (x.2 : ℤ))).map Prod.fst = events := by
    simp [List.map_map, Function.comp_def]
  have hright : (((timedEvents ops).map Prod.fst).filter fun e => e.kind = .callEvent).map Event.id =
      ops.map Prod.snd := by
    simp [timedEvents, List.map_flatMap, List.filter_flatMap, ← List.map_eq_flatMap]
  rwa [hleft, hright] at hcalls

theorem EventsOf.return_mem (h : EventsOf events ops) {us vs : List (Event I O)} {e : Event I O}
    (hevents : events = us ++ e :: vs) (he : e.kind = .returnEvent) : e.id ∈ callIds us := by
  have hget : events[us.length]? = some e := by simp [hevents]
  obtain ⟨op, hop, heq | heq⟩ := mem_timedEvents.mp (h.mem_iff.mp hget)
  · simp only [Prod.mk.injEq] at heq
    rw [heq.1] at he
    cases he
  · obtain ⟨rfl, hret⟩ := Prod.mk.inj heq
    obtain ⟨x, hx, hxeq⟩ := List.mem_map.mp (h.perm.mem_iff.mpr (mem_timedEvents.mpr ⟨op, hop, .inl rfl⟩))
    obtain ⟨hcall, htime⟩ := Prod.mk.inj hxeq
    have hxget := List.mem_zipIdx_iff_getElem?.mp hx
    have hle := h.times op hop
    have hlt : x.2 < us.length := by
      refine lt_of_le_of_ne (by omega) ?_
      intro heq
      rw [heq, hget, Option.some.injEq, hcall] at hxget
      cases hxget
    rw [hevents, List.getElem?_append_left hlt, hcall] at hxget
    exact List.mem_map.mpr ⟨_, List.mem_filter.mpr ⟨List.mem_of_getElem? hxget, by simp⟩, rfl⟩

theorem EventsOf.exists_ops (h : EventsOf events ops) :
    ∃ ops' : List (Operation I O × ℤ), ops'.Perm ops ∧ callIds events = ops'.map Prod.snd := by
  have hsnd : List.Forall₂ (fun (id : ℤ) (op : Operation I O × ℤ) => id = op.2) (ops.map Prod.snd) ops := by
    rw [List.forall₂_map_left_iff, List.forall₂_same]
    exact fun _ _ => rfl
  obtain ⟨ops', hops', hperm⟩ := List.perm_comp_forall₂ h.callIds_perm hsnd
  refine ⟨ops', hperm, ?_⟩
  rwa [← List.forall₂_eq_eq_eq, List.forall₂_map_right_iff]

/-- An event at a time, as an entry with another number. -/
def timedEntry (number : ℤ → ℕ) (x : Event I O × ℤ) : Entry I O :=
  ⟨if x.1.kind = .returnEvent then .returnEntry else .callEntry, x.1.value, number x.1.id, x.2, x.1.clientId⟩

theorem convertEntries_map (number : ℤ → ℕ) :
    convertEntries (events.map fun e => { e with id := number e.id }) =
      (events.zipIdx.map fun x => (x.1, (x.2 : ℤ))).map (timedEntry number) := by
  simp [convertEntries, List.zipIdx_map, timedEntry, Function.comp_def]

theorem operationEntries_eq (hnodup : (ops.map Prod.snd).Nodup) :
    operationEntries (ops.map Prod.fst) = (timedEvents ops).map (timedEntry (ops.map Prod.snd).idxOf) := by
  have hright : (timedEvents ops).map (timedEntry (ops.map Prod.snd).idxOf) = ops.zipIdx.flatMap fun x =>
      [⟨.callEntry, .input x.1.1.input, (ops.map Prod.snd).idxOf x.1.2, x.1.1.call, x.1.1.clientId⟩,
        ⟨.returnEntry, .output x.1.1.output, (ops.map Prod.snd).idxOf x.1.2, x.1.1.ret, x.1.1.clientId⟩] := by
    conv_lhs => rw [timedEvents, List.map_flatMap, ← List.zipIdx_map_fst 0 ops, List.flatMap_map]
    simp [timedEntry]
  rw [hright, operationEntries, List.zipIdx_map, List.flatMap_map]
  apply List.flatMap_congr
  rintro ⟨op, i⟩ hmem
  have hop : ops[i]? = some op := by simpa using List.mem_zipIdx_iff_getElem?.mp hmem
  obtain ⟨hi, rfl⟩ := List.getElem?_eq_some_iff.mp hop
  have hidx : (ops.map Prod.snd).idxOf ops[i].2 = i := by
    have := hnodup.idxOf_getElem i (by simpa using hi)
    rwa [List.getElem_map] at this
  simp [hidx]

theorem EventsOf.entriesOf (h : EventsOf events ops) (hids : callIds events = ops.map Prod.snd) :
    EntriesOf (convertEntries (renumber events)) (ops.map Prod.fst) := by
  have hrenumber : renumber events =
      events.map fun e => { e with id := (ops.map Prod.snd).idxOf e.id } := by
    rw [← hids]
    refine @renumberFrom_eq _ _ events _ [] (by simp) ?_ ?_
    · simpa [hids] using h.numbers
    · intro us e vs hevents he
      simpa using h.return_mem hevents he
  rw [hrenumber, convertEntries_map fun id => (ops.map Prod.snd).idxOf id]
  constructor
  · rw [operationEntries_eq h.numbers]
    exact h.perm.map _
  · rw [List.pairwise_map, List.pairwise_map]
    have hplaces : events.zipIdx.Pairwise fun x y => x.2 < y.2 := by
      rw [← List.pairwise_map (f := Prod.snd) (R := (· < ·)), List.zipIdx_map_snd]
      exact List.pairwise_lt_range'
    refine hplaces.imp ?_
    intro x y hlt
    rw [less_iff]
    simp only [timedEntry, Nat.cast_lt, Nat.cast_inj]
    omega

end Entries

section Permuted
variable {model : FilledModel S I O}

theorem IsLinearizable.perm {history history' : List (Operation I O)}
    (h : IsLinearizable model history) (hperm : history.Perm history') : IsLinearizable model history' := by
  obtain ⟨order, horder⟩ := h
  exact ⟨order, horder.perm.trans hperm, horder.realTime, horder.legal⟩

theorem RightResult.perm {histories histories' : List (List (Operation I O))} {timeout : Bool}
    {result : CheckResult} (h : RightResult model histories timeout result)
    (hperm : List.Forall₂ List.Perm histories histories') : RightResult model histories' timeout result where
  ok hresult history' hmem := by
    obtain ⟨i, hi, rfl⟩ := List.getElem_of_mem hmem
    have hi' : i < histories.length := hperm.length_eq ▸ hi
    exact (h.ok hresult _ (List.getElem_mem hi')).perm (hperm.get hi' hi)
  illegal hresult := by
    obtain ⟨history, hmem, hnot⟩ := h.illegal hresult
    obtain ⟨i, hi, rfl⟩ := List.getElem_of_mem hmem
    have hi' : i < histories'.length := hperm.length_eq ▸ hi
    exact ⟨_, List.getElem_mem hi', fun hlin => hnot (hlin.perm (hperm.get hi hi').symm)⟩
  unknown := h.unknown

end Permuted

theorem exists_partsOf {parts : List (List (Event I O))}
    {ops : List (List (Operation I O × ℤ))} (h : List.Forall₂ EventsOf parts ops) :
    ∃ histories, PartsOf (parts.map fun part => convertEntries (renumber part)) histories ∧
      List.Forall₂ List.Perm histories (ops.map fun part => part.map Prod.fst) := by
  induction h with
  | nil => exact ⟨[], ⟨.nil, by simp⟩, .nil⟩
  | @cons part ops parts opss hpart _ ih =>
    obtain ⟨histories, hparts, hperm⟩ := ih
    obtain ⟨ops', hops', hids⟩ := hpart.exists_ops
    have hpart' : EventsOf part ops' := {
      numbers := (hops'.map _).nodup_iff.mpr hpart.numbers
      times := fun op hop => hpart.times op (hops'.mem_iff.mp hop)
      perm := hpart.perm.trans (hops'.symm.flatMap_right _) }
    refine ⟨ops'.map Prod.fst :: histories, ⟨.cons (hpart'.entriesOf hids) hparts.entries, ?_⟩,
      .cons (hops'.map _) hperm⟩
    rintro history hmem op hop
    rcases List.mem_cons.mp hmem with rfl | hmem
    · obtain ⟨x, hx, rfl⟩ := List.mem_map.mp hop
      exact hpart'.times x hx
    · exact hparts.times history hmem op hop

section Events
variable [DecidableEq S] (model : Model S I O) (history : List (Event I O)) (verbose timeout : Bool)

/-- The entries of the parts of a history of events. -/
def eventParts : List (List (Entry I O)) :=
  ((fillDefault model).partitionEvent history).map fun subhistory => convertEntries (renumber subhistory)

/-- The runs of `checkEvents`. -/
def CheckEvents : Parallel S I O → Prop :=
  CheckParallel (fillDefault model) (eventParts model history) verbose timeout

variable {model history verbose timeout} {ops : List (List (Operation I O × ℤ))}

/-- `checkEvents` on parts that have the events of operations: in no schedule does a goroutine panic,
every run ends with an answer, and the answer is right for the operations. -/
theorem checkEvents_decides_linearizability (hequal : (fillDefault model).EqualSound)
    (hevents : List.Forall₂ EventsOf ((fillDefault model).partitionEvent history) ops) (hne : ops ≠ []) :
    AlwaysReturns (fillDefault model) (eventParts model history) verbose timeout ∧
    ∀ w, CheckEvents model history verbose timeout w →
      (∀ task ∈ w.tasks, task ≠ .panicked) ∧
      ∀ result info, w.phase = .returned result info →
        RightResult (fillDefault model) (ops.map fun part => part.map Prod.fst) timeout result := by
  obtain ⟨histories, hparts, hperm⟩ := exists_partsOf hevents
  constructor
  · apply hparts.alwaysReturns hequal
    rintro rfl
    simp [hne] at hperm
  · intro w h
    refine ⟨hparts.not_panicked hequal h, fun result info hphase => ?_⟩
    exact (hparts.rightResult hequal h hphase).perm hperm

/-- The events of a put and a get that overlap, with the numbers 7 and 4. -/
def overlappingEvents : List (Event KvInput KvOutput) :=
  [⟨0, .callEvent, .input ⟨1, "x", "a"⟩, 7⟩, ⟨1, .callEvent, .input ⟨0, "x", ""⟩, 4⟩,
    ⟨0, .returnEvent, .output ⟨""⟩, 7⟩, ⟨1, .returnEvent, .output ⟨"a"⟩, 4⟩]

theorem checkEvents_decides_overlapping :
    AlwaysReturns (fillDefault kvModel) (eventParts kvModel overlappingEvents) false false := by
  have hevents : List.Forall₂ EventsOf ((fillDefault kvModel).partitionEvent overlappingEvents)
      [[(⟨0, ⟨1, "x", "a"⟩, 0, ⟨""⟩, 2⟩, 7), (⟨1, ⟨0, "x", ""⟩, 1, ⟨"a"⟩, 3⟩, 4)]] :=
    .cons ⟨by decide, by decide, by decide⟩ .nil
  exact (checkEvents_decides_linearizability equalSound_kvModel hevents (by simp)).1

end Events

end DistributedLabs.Porcupine
