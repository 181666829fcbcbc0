import DistributedLabs.PorcupineSearch

/-!
# Histories of operations and their entries

`makeEntries` sorts the calls and returns of a history by time, calls before returns. Whatever
sorting function is used, a return stands before a call in its result exactly if it was earlier.
So the orders of the entries are the linearizations of the history.
-/

namespace DistributedLabs.Porcupine
open Linearizability

variable {S I O : Type} {history : List (Operation I O)}

theorem less_iff {a b : Entry I O} :
    less a b ↔ a.time < b.time ∨ a.time = b.time ∧ a.isCall ∧ b.isCall = false := by
  have hkind : b.kind = .returnEntry ↔ b.isCall = false := by
    cases h : b.kind <;> simp [Entry.isCall, h]
  have hkind' : a.kind = .callEntry ↔ a.isCall := by simp [Entry.isCall]
  unfold less
  split_ifs with hne
  · simp [hne]
  · push Not at hne
    simp [hne, hkind, hkind']

/-- `sort.Sort` as insertion sort. -/
def insertionSorting (I O : Type) : Sorting I O where
  sort := List.insertionSort fun a b => ¬less b a
  perm entries := List.perm_insertionSort _ entries
  sorted entries := by
    have htotal : Std.Total fun a b : Entry I O => ¬less b a := ⟨fun a b => by
      simp only [less_iff]
      grind⟩
    have htrans : IsTrans (Entry I O) fun a b => ¬less b a := ⟨fun a b c => by
      simp only [less_iff]
      grind⟩
    exact List.pairwise_insertionSort _ entries

/-- Inputs and outputs of the operations. -/
def operationValues (history : List (Operation I O)) : List (I × O) :=
  history.map fun op => (op.input, op.output)

theorem mem_operationEntries {e : Entry I O} (he : e ∈ operationEntries history) :
    ∃ op, history[e.id]? = some op ∧ e.value = (if e.isCall then .input op.input else .output op.output) ∧
      e.time = if e.isCall then op.call else op.ret := by
  obtain ⟨⟨op, id⟩, hmem, he⟩ := List.mem_flatMap.mp he
  have hop : history[id]? = some op := by
    simpa using List.mem_zipIdx_iff_getElem?.mp hmem
  simp only [List.mem_cons, List.not_mem_nil, or_false] at he
  rcases he with rfl | rfl
  · exact ⟨op, hop, by simp [Entry.isCall], by simp [Entry.isCall]⟩
  · exact ⟨op, hop, by simp [Entry.isCall], by simp [Entry.isCall]⟩

theorem exists_mem_operationEntries {op : Operation I O} {i : ℕ} (hop : history[i]? = some op)
    (isCall : Bool) : ∃ e ∈ operationEntries history, e.isCall = isCall ∧ e.id = i := by
  have hmem : (op, i) ∈ history.zipIdx := List.mem_zipIdx_iff_getElem?.mpr (by simpa using hop)
  cases isCall with
  | true =>
    exact ⟨⟨.callEntry, .input op.input, i, op.call, op.clientId⟩,
      List.mem_flatMap.mpr ⟨_, hmem, by simp⟩, by simp [Entry.isCall], rfl⟩
  | false =>
    exact ⟨⟨.returnEntry, .output op.output, i, op.ret, op.clientId⟩,
      List.mem_flatMap.mpr ⟨_, hmem, by simp⟩, by simp [Entry.isCall], rfl⟩

theorem ids_operationEntries (isCall : Bool) :
    ((operationEntries history).filter fun e => e.isCall == isCall).map Entry.id =
      List.range history.length := by
  have hone : ∀ x : Operation I O × ℕ,
      (([⟨.callEntry, .input x.1.input, x.2, x.1.call, x.1.clientId⟩,
        ⟨.returnEntry, .output x.1.output, x.2, x.1.ret, x.1.clientId⟩] : List (Entry I O)).filter
          fun e => e.isCall == isCall).map Entry.id = [x.2] := by
    intro x
    cases isCall <;> simp [Entry.isCall]
  rw [operationEntries, List.filter_flatMap, List.map_flatMap]
  simp only [hone]
  rw [← List.map_eq_flatMap, List.zipIdx_map_snd, List.range_eq_range']

/-- The entries of a history, in an order that the times allow. -/
structure EntriesOf (entries : List (Entry I O)) (history : List (Operation I O)) : Prop where
  perm : entries.Perm (operationEntries history)
  sorted : entries.Pairwise fun a b => ¬less b a

theorem entriesOf_makeEntries (sorting : Sorting I O) : EntriesOf (makeEntries sorting history) history :=
  ⟨sorting.perm _, sorting.sorted _⟩

variable {entries : List (Entry I O)}

theorem EntriesOf.describes (h : EntriesOf entries history) (htimes : ∀ op ∈ history, op.call ≤ op.ret) :
    Describes entries (operationValues history) where
  calls := by
    refine ((h.perm.filter _).map _).trans (List.Perm.of_eq ?_)
    simpa [operationValues] using @ids_operationEntries _ _ history true
  returns := by
    refine ((h.perm.filter _).map _).trans (List.Perm.of_eq ?_)
    simpa [operationValues] using @ids_operationEntries _ _ history false
  ordered := by
    refine h.sorted.imp_of_mem ?_
    intro a b ha hb hless hreturn hcall hid
    obtain ⟨op, hop, -, hatime⟩ := mem_operationEntries (h.perm.mem_iff.mp ha)
    obtain ⟨op', hop', -, hbtime⟩ := mem_operationEntries (h.perm.mem_iff.mp hb)
    rw [hid, hop', Option.some.injEq] at hop
    subst hop
    have hle := htimes op' (List.mem_of_getElem? hop')
    simp only [hreturn, hcall, Bool.false_eq_true, ↓reduceIte] at hatime hbtime
    apply hless
    rw [less_iff]
    grind
  value := by
    intro e he op hop
    obtain ⟨op', hop', hvalue, -⟩ := mem_operationEntries (h.perm.mem_iff.mp he)
    rw [operationValues, List.getElem?_map, hop'] at hop
    cases hop
    exact hvalue

theorem EntriesOf.precedes_iff (h : EntriesOf entries history) {j i : ℕ} :
    Precedes entries j i ↔ ∃ a b, history[j]? = some a ∧ history[i]? = some b ∧ a.ret < b.call := by
  constructor
  · rintro ⟨x, y, hsub, hx, rfl, hy, rfl⟩
    obtain ⟨a, ha, -, hxtime⟩ := mem_operationEntries (e := x) (h.perm.mem_iff.mp (hsub.subset (by simp)))
    obtain ⟨b, hb, -, hytime⟩ := mem_operationEntries (e := y) (h.perm.mem_iff.mp (hsub.subset (by simp)))
    have hless := h.sorted.sublist hsub
    simp only [List.pairwise_cons, List.mem_singleton, forall_eq] at hless
    simp only [hx, hy, Bool.false_eq_true, ↓reduceIte] at hxtime hytime
    rw [less_iff] at hless
    exact ⟨a, b, ha, hb, by grind⟩
  · rintro ⟨a, b, ha, hb, hlt⟩
    obtain ⟨x, hx, hxcall, rfl⟩ := exists_mem_operationEntries ha false
    obtain ⟨y, hy, hycall, rfl⟩ := exists_mem_operationEntries hb true
    obtain ⟨a', ha', -, hxtime⟩ := mem_operationEntries hx
    obtain ⟨b', hb', -, hytime⟩ := mem_operationEntries hy
    obtain rfl := Option.some.inj (ha.symm.trans ha')
    obtain rfl := Option.some.inj (hb.symm.trans hb')
    simp only [hxcall, hycall, Bool.false_eq_true, ↓reduceIte] at hxtime hytime
    obtain ⟨us, vs, rfl⟩ := List.append_of_mem (h.perm.mem_iff.mpr hx)
    have hmem := h.perm.mem_iff.mpr hy
    rw [List.mem_append, List.mem_cons] at hmem
    rcases hmem with hmem | rfl | hmem
    · exfalso
      have hsub : [y, x].Sublist (us ++ x :: vs) :=
        (List.singleton_sublist.mpr hmem).append (List.singleton_sublist.mpr List.mem_cons_self)
      have hless := h.sorted.sublist hsub
      simp only [List.pairwise_cons, List.mem_singleton, forall_eq] at hless
      rw [less_iff] at hless
      grind
    · simp [hxcall] at hycall
    · refine ⟨x, y, ?_, hxcall, rfl, hycall, rfl⟩
      exact ((List.singleton_sublist.mpr hmem).cons_cons x).trans (List.sublist_append_right _ _)

variable (model : FilledModel S I O)

/-- The state behind an operation of a history. -/
def FilledModel.nextOperation (s : S) (op : Operation I O) : Option S := model.next s (op.input, op.output)

/-- The history has a linearization that the model allows. -/
def IsLinearizable (history : List (Operation I O)) : Prop :=
  Linearizable model.nextOperation model.init (fun a b => a.ret < b.call) history

variable {model}

theorem runFrom_operationValues (s : S) (order : List ℕ) :
    runFrom model.next s (order.filterMap ((operationValues history)[·]?)) =
      runFrom model.nextOperation s (order.filterMap (history[·]?)) := by
  induction order generalizing s with
  | nil => rfl
  | cons i order ih =>
    cases hop : history[i]? with
    | none => simpa [operationValues, List.filterMap_cons, hop] using ih s
    | some op =>
      simp only [operationValues, List.filterMap_cons, List.getElem?_map, hop, Option.map_some,
        runFrom_cons]
      congr 1
      funext t
      simpa [operationValues] using ih t

/-- The operations with the numbers `ids`, where each operation is known to have its number. -/
theorem filterMap_eq_of_forall₂ {order : List (Operation I O)} {ids : List ℕ}
    (h : List.Forall₂ (fun op i => history[i]? = some op) order ids) :
    ids.filterMap (history[·]?) = order := by
  induction h with
  | nil => rfl
  | cons hop _ ih => simp [hop, ih]

theorem forall₂_range :
    List.Forall₂ (fun op i => history[i]? = some op) history (List.range history.length) := by
  rw [List.forall₂_iff_get]
  exact ⟨by simp, fun i hi hi' => by simp⟩

theorem exists_numbers {order : List (Operation I O)} (h : order.Perm history) :
    ∃ ids : List ℕ, ids.Perm (List.range history.length) ∧ ids.filterMap (history[·]?) = order := by
  obtain ⟨ids, hids, hperm⟩ := List.perm_comp_forall₂ h forall₂_range
  exact ⟨ids, hperm, filterMap_eq_of_forall₂ hids⟩

theorem EntriesOf.exists_isOrder_iff (h : EntriesOf entries history) :
    (∃ order, IsOrder model entries (operationValues history) order) ↔ IsLinearizable model history := by
  have hlen : (operationValues history).length = history.length := List.length_map _
  constructor
  · rintro ⟨order, hperm, hreal, hlegal⟩
    rw [hlen] at hperm
    refine ⟨order.filterMap (history[·]?), ?_, ?_, ?_⟩
    · exact (hperm.filterMap _).trans (.of_eq (filterMap_eq_of_forall₂ forall₂_range))
    · rw [List.pairwise_filterMap]
      refine hreal.imp ?_
      intro i j hprec a ha b hb hlt
      exact hprec (h.precedes_iff.mpr ⟨b, a, hb, ha, hlt⟩)
    · rwa [runFrom_operationValues] at hlegal
  · rintro ⟨order, hperm, hreal, hlegal⟩
    obtain ⟨ids, hids, rfl⟩ := exists_numbers hperm
    refine ⟨ids, hlen ▸ hids, ?_, ?_⟩
    · rw [List.pairwise_filterMap] at hreal
      refine hreal.imp ?_
      intro i j hprec hlt
      obtain ⟨a, b, ha, hb, hlt⟩ := h.precedes_iff.mp hlt
      exact hprec b hb a ha hlt
    · rwa [runFrom_operationValues]

/-- `order` may begin a linearization: the model allows it, its operations are in an order that their
times allow, and no other operation had returned before one of them was called. -/
structure IsPartialLinearization (model : FilledModel S I O) (history : List (Operation I O))
    (order : List ℕ) : Prop where
  nodup : order.Nodup
  lt : ∀ i ∈ order, i < history.length
  realTime : order.Pairwise fun i j => ∀ a b, history[i]? = some a → history[j]? = some b →
    ¬b.ret < a.call
  rest : ∀ i ∈ order, ∀ j ∉ order, ∀ a b, history[i]? = some a → history[j]? = some b → ¬b.ret < a.call
  legal : (runFrom model.nextOperation model.init (order.filterMap (history[·]?))).isSome

theorem EntriesOf.exists_isBeginning_iff (h : EntriesOf entries history) {order : List ℕ} :
    (∃ s, IsBeginning model entries (operationValues history) order s) ↔
      IsPartialLinearization model history order := by
  have hprec : ∀ i j, ¬Precedes entries j i ↔
      ∀ a b, history[i]? = some a → history[j]? = some b → ¬b.ret < a.call := by
    intro i j
    rw [h.precedes_iff]
    exact ⟨fun h a b ha hb hlt => h ⟨b, a, hb, ha, hlt⟩, fun h ⟨b, a, hb, ha, hlt⟩ => h a b ha hb hlt⟩
  have hlen : (operationValues history).length = history.length := List.length_map _
  constructor
  · rintro ⟨s, h⟩
    refine ⟨h.nodup, fun i hi => (h.lt i hi).trans_eq hlen, h.realTime.imp fun hij => (hprec _ _).mp hij,
      fun i hi j hj => (hprec i j).mp (h.rest i hi j hj), ?_⟩
    rw [← runFrom_operationValues, h.legal]
    rfl
  · intro h
    obtain ⟨s, hs⟩ := Option.isSome_iff_exists.mp h.legal
    rw [← runFrom_operationValues] at hs
    exact ⟨s, h.nodup, fun i hi => (h.lt i hi).trans_eq hlen.symm, h.realTime.imp fun hij => (hprec _ _).mpr hij,
      fun i hi j hj => (hprec i j).mpr (h.rest i hi j hj), hs⟩

end DistributedLabs.Porcupine
