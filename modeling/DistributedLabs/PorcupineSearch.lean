import DistributedLabs.Linearizability
import DistributedLabs.MemoisedSearch
import DistributedLabs.PorcupineChecker
import Mathlib.Data.List.TakeWhile

/-!
# What the linearizability checker searches

The search of the checker without its heap and its bit sets. A configuration has the operations
that were put into the order, the last one first, and the state the model is in. The attempts from
it are the calls in front of the first return among the entries that are left. The configurations
that can be reached are the beginnings of linearizations.
-/

namespace DistributedLabs.Porcupine
open Linearizability MemoisedSearch

variable {S I O : Type}

def Entry.isCall (e : Entry I O) : Bool := e.kind = .callEntry

/-- `entries` has a call and, behind it, a return for each of the operations `ops`. -/
structure Describes (entries : List (Entry I O)) (ops : List (I × O)) : Prop where
  calls : ((entries.filter Entry.isCall).map Entry.id).Perm (List.range ops.length)
  returns : ((entries.filter fun e => !e.isCall).map Entry.id).Perm (List.range ops.length)
  ordered : entries.Pairwise fun a b => a.isCall = false → b.isCall → a.id ≠ b.id
  value : ∀ e ∈ entries, ∀ op, ops[e.id]? = some op →
    e.value = if e.isCall then .input op.1 else .output op.2

/-- The return of operation `j` stands before the call of operation `i`. -/
def Precedes (entries : List (Entry I O)) (j i : ℕ) : Prop :=
  ∃ a b, [a, b].Sublist entries ∧ a.isCall = false ∧ a.id = j ∧ b.isCall ∧ b.id = i

namespace Describes
variable {entries : List (Entry I O)} {ops : List (I × O)}

theorem nodup (h : Describes entries ops) : entries.Nodup := by
  have hcalls : (entries.filter Entry.isCall).Nodup :=
    (h.calls.nodup_iff.mpr List.nodup_range).of_map
  have hreturns : (entries.filter fun e => !e.isCall).Nodup :=
    (h.returns.nodup_iff.mpr List.nodup_range).of_map
  refine (List.filter_append_perm Entry.isCall entries).nodup_iff.mp ?_
  refine hcalls.append (by simpa using hreturns) ?_
  intro e he he'
  simp_all

theorem id_lt (h : Describes entries ops) {e : Entry I O} (he : e ∈ entries) : e.id < ops.length := by
  cases hcall : e.isCall with
  | true =>
    have hmem : e.id ∈ (entries.filter Entry.isCall).map Entry.id :=
      List.mem_map_of_mem (List.mem_filter.mpr ⟨he, hcall⟩)
    simpa using h.calls.mem_iff.mp hmem
  | false =>
    have hmem : e.id ∈ (entries.filter fun e => !e.isCall).map Entry.id :=
      List.mem_map_of_mem (List.mem_filter.mpr ⟨he, by simp [hcall]⟩)
    simpa using h.returns.mem_iff.mp hmem

/-- An operation has one call and one return. -/
theorem eq_of_id_eq (h : Describes entries ops) {a b : Entry I O} (ha : a ∈ entries) (hb : b ∈ entries)
    (hkind : a.isCall = b.isCall) (hid : a.id = b.id) : a = b := by
  cases hcall : b.isCall with
  | true =>
    exact List.inj_on_of_nodup_map (h.calls.nodup_iff.mpr List.nodup_range)
      (List.mem_filter.mpr ⟨ha, hkind.trans hcall⟩) (List.mem_filter.mpr ⟨hb, hcall⟩) hid
  | false =>
    exact List.inj_on_of_nodup_map (h.returns.nodup_iff.mpr List.nodup_range)
      (List.mem_filter.mpr ⟨ha, by simp [hkind, hcall]⟩) (List.mem_filter.mpr ⟨hb, by simp [hcall]⟩) hid

theorem exists_entry (h : Describes entries ops) {i : ℕ} (hi : i < ops.length) (isCall : Bool) :
    ∃ e ∈ entries, e.isCall = isCall ∧ e.id = i := by
  cases isCall with
  | true =>
    obtain ⟨e, he, rfl⟩ := List.mem_map.mp (h.calls.mem_iff.mpr (List.mem_range.mpr hi))
    obtain ⟨he, hcall⟩ := List.mem_filter.mp he
    exact ⟨e, he, hcall, rfl⟩
  | false =>
    obtain ⟨e, he, rfl⟩ := List.mem_map.mp (h.returns.mem_iff.mpr (List.mem_range.mpr hi))
    obtain ⟨he, hcall⟩ := List.mem_filter.mp he
    exact ⟨e, he, by simpa using hcall, rfl⟩

end Describes

/-- The operations in the order, the last one first, and the state behind them. -/
structure Config (S : Type) where
  done : List ℕ
  state : S

/-- The entries of operations that are not in the order. -/
def live (entries : List (Entry I O)) (done : List ℕ) : List (Entry I O) :=
  entries.filter fun e => e.id ∉ done

/-- The calls that may come next. -/
def candidates (entries : List (Entry I O)) (done : List ℕ) : List (Entry I O) :=
  (live entries done).takeWhile Entry.isCall

section
variable (model : FilledModel S I O)

/-- The state behind an operation, if the model allows it. -/
def FilledModel.next (s : S) (op : I × O) : Option S :=
  if (model.step s op.1 op.2).1 then some (model.step s op.1 op.2).2 else none

def attempt (ops : List (I × O)) (c : Config S) (e : Entry I O) : Option (Config S) :=
  ops[e.id]?.bind fun op => (model.next c.state op).map (⟨e.id :: c.done, ·⟩)

def problem (entries : List (Entry I O)) (ops : List (I × O)) : Problem (Config S) where
  tries c := (candidates entries c.done).map (attempt model ops c)
  goal c := (live entries c.done).isEmpty
  same c d := (c.done.all (· ∈ d.done) && d.done.all (· ∈ c.done)) && model.equal c.state d.state

def FilledModel.root : Config S := ⟨[], model.init⟩

/-- States that are equal to the model allow the same outputs, and go to equal states. -/
def FilledModel.EqualSound : Prop :=
  ∀ s t, model.equal s t → ∀ i o, (model.step s i o).1 →
    (model.step t i o).1 ∧ model.equal (model.step s i o).2 (model.step t i o).2

end

variable {model : FilledModel S I O} {entries : List (Entry I O)} {ops : List (I × O)}

theorem mem_live {done : List ℕ} {e : Entry I O} : e ∈ live entries done ↔ e ∈ entries ∧ e.id ∉ done := by
  simp [live]

theorem live_congr {done done' : List ℕ} (h : ∀ i, i ∈ done ↔ i ∈ done') :
    live entries done = live entries done' := by
  simp only [live, h]

theorem live_cons (i : ℕ) (done : List ℕ) :
    live entries (i :: done) = (live entries done).filter fun e => e.id ≠ i := by
  simp only [live, List.filter_filter]
  apply List.filter_congr
  intro e _
  simp [not_or]

theorem length_live_cons_lt {done : List ℕ} {e : Entry I O} (he : e ∈ live entries done) :
    (live entries (e.id :: done)).length < (live entries done).length := by
  rw [live_cons]
  exact List.length_filter_lt_length_iff_exists.mpr ⟨e, he, by simp⟩

theorem same_iff {c d : Config S} :
    (problem model entries ops).same c d ↔
      (∀ i, i ∈ c.done ↔ i ∈ d.done) ∧ model.equal c.state d.state := by
  simp only [problem, Bool.and_eq_true, List.all_eq_true, decide_eq_true_eq]
  exact and_congr_left fun _ => ⟨fun h i => ⟨h.1 i, h.2 i⟩, fun h => ⟨fun i => (h i).1, fun i => (h i).2⟩⟩

theorem attempt_eq_some {c c' : Config S} {e : Entry I O} :
    attempt model ops c e = some c' ↔
      ∃ op, ops[e.id]? = some op ∧ ∃ s, model.next c.state op = some s ∧ c' = ⟨e.id :: c.done, s⟩ := by
  simp only [attempt, Option.bind_eq_some_iff, Option.map_eq_some_iff, eq_comm (a := c')]

theorem mem_tries {c c' : Config S} :
    some c' ∈ (problem model entries ops).tries c ↔
      ∃ e ∈ candidates entries c.done, attempt model ops c e = some c' := by
  simp [problem]

theorem next_of_equal (hequal : model.EqualSound) {s t s' : S} (h : model.equal s t) {op : I × O}
    (hs : model.next s op = some s') : ∃ t', model.next t op = some t' ∧ model.equal s' t' := by
  unfold FilledModel.next at hs ⊢
  split_ifs at hs with hok
  obtain ⟨hok', hnext⟩ := hequal s t h op.1 op.2 hok
  cases hs
  exact ⟨_, if_pos hok', hnext⟩

theorem sameSimulates (hequal : model.EqualSound) : (problem model entries ops).SameSimulates where
  goal c d h hc := by
    have hlive : live entries c.done = live entries d.done := live_congr (same_iff.mp h).1
    change (live entries d.done).isEmpty = true
    rwa [← hlive]
  attempt c d h c' hc' := by
    obtain ⟨hdone, hstate⟩ := same_iff.mp h
    obtain ⟨e, he, hattempt⟩ := mem_tries.mp hc'
    obtain ⟨op, hop, s, hs, rfl⟩ := attempt_eq_some.mp hattempt
    obtain ⟨t, ht, hst⟩ := next_of_equal hequal hstate hs
    refine ⟨⟨e.id :: d.done, t⟩, mem_tries.mpr ⟨e, ?_, ?_⟩, same_iff.mpr ⟨?_, hst⟩⟩
    · rwa [candidates, ← live_congr hdone]
    · exact attempt_eq_some.mpr ⟨op, hop, t, ht, rfl⟩
    · simp [hdone]

theorem mem_live_of_mem_candidates {done : List ℕ} {e : Entry I O} (h : e ∈ candidates entries done) :
    e ∈ live entries done :=
  (List.takeWhile_prefix _).subset h

theorem bounded : (problem model entries ops).Bounded (fun c => (live entries c.done).length)
    entries.length where
  depth c c' h := by
    obtain ⟨e, he, hattempt⟩ := mem_tries.mp h
    obtain ⟨op, -, s, -, rfl⟩ := attempt_eq_some.mp hattempt
    exact length_live_cons_lt (mem_live_of_mem_candidates he)
  width c := by
    simp only [problem, List.length_map, candidates]
    exact (List.takeWhile_prefix _).length_le.trans (List.length_filter_le _ _)

/-- A call may come next if every operation that returned before it is in the order. -/
theorem mem_candidates (h : Describes entries ops) {done : List ℕ} {e : Entry I O} :
    e ∈ candidates entries done ↔
      e ∈ entries ∧ e.isCall ∧ e.id ∉ done ∧ ∀ j ∉ done, ¬Precedes entries j e.id := by
  have hlive : (live entries done).Nodup := h.nodup.filter _
  constructor
  · intro he
    obtain ⟨hmem, hdone⟩ := mem_live.mp (mem_live_of_mem_candidates he)
    have hcall : e.isCall := List.mem_takeWhile_imp he
    refine ⟨hmem, hcall, hdone, ?_⟩
    rintro j hj ⟨a, b, hsub, ha, rfl, hb, hid⟩
    obtain rfl : b = e := h.eq_of_id_eq (hsub.subset (by simp)) hmem (hb.trans hcall.symm) hid
    have hsub' : [a, b].Sublist (candidates entries done ++ (live entries done).dropWhile Entry.isCall) := by
      rw [candidates, List.takeWhile_append_dropWhile]
      simpa [live, hj, hdone] using hsub.filter fun e => e.id ∉ done
    obtain ⟨l₁, l₂, heq, hl₁, hl₂⟩ := List.sublist_append_iff.mp hsub'
    cases l₁ with
    | nil =>
      obtain rfl : [a, b] = l₂ := by simpa using heq
      rw [← List.takeWhile_append_dropWhile (p := Entry.isCall) (l := live entries done)] at hlive
      exact List.disjoint_of_nodup_append hlive he (hl₂.subset (by simp))
    | cons x l₁ =>
      obtain rfl : a = x := (List.cons.inj heq).1
      have := List.mem_takeWhile_imp (hl₁.subset List.mem_cons_self)
      simp [ha] at this
  · rintro ⟨hmem, hcall, hdone, hprec⟩
    obtain ⟨xs, ys, hsplit⟩ := List.append_of_mem (mem_live.mpr ⟨hmem, hdone⟩)
    have hall : ∀ x ∈ xs, x.isCall := by
      intro x hx
      by_contra hreturn
      have hxlive : x ∈ live entries done := hsplit ▸ List.mem_append_left _ hx
      have hsub : [x, e].Sublist (live entries done) := by
        rw [hsplit]
        exact (List.singleton_sublist.mpr hx).append (List.singleton_sublist.mpr List.mem_cons_self)
      exact hprec x.id (mem_live.mp hxlive).2
        ⟨x, e, hsub.trans List.filter_sublist, by simpa using hreturn, rfl, hcall, rfl⟩
    rw [candidates, hsplit, List.takeWhile_append_of_pos hall, List.takeWhile_cons_of_pos hcall]
    simp

variable (model entries ops) in
/-- `order` begins a linearization, as far as the operations in it and the order of the others tell:
the model allows it and goes to `s`. -/
structure IsBeginning (order : List ℕ) (s : S) : Prop where
  nodup : order.Nodup
  lt : ∀ i ∈ order, i < ops.length
  realTime : order.Pairwise fun a b => ¬Precedes entries b a
  rest : ∀ i ∈ order, ∀ j ∉ order, ¬Precedes entries j i
  legal : runFrom model.next model.init (order.filterMap (ops[·]?)) = some s

theorem IsBeginning.snoc {order : List ℕ} {s s' : S} (h : IsBeginning model entries ops order s)
    (hd : Describes entries ops) {e : Entry I O} (he : e ∈ candidates entries order) {op : I × O}
    (hop : ops[e.id]? = some op) (hs : model.next s op = some s') :
    IsBeginning model entries ops (order ++ [e.id]) s' := by
  obtain ⟨hmem, -, hdone, hprec⟩ := (mem_candidates hd).mp he
  have hlt := hd.id_lt hmem
  constructor
  · exact h.nodup.append (List.nodup_singleton _) (by simpa using hdone)
  · intro i hi
    rcases List.mem_append.mp hi with hi | hi
    · exact h.lt i hi
    · simpa [List.mem_singleton.mp hi] using hlt
  · refine List.pairwise_append.mpr ⟨h.realTime, List.pairwise_singleton _ _, ?_⟩
    intro i hi j hj
    obtain rfl := List.mem_singleton.mp hj
    exact h.rest i hi _ hdone
  · intro i hi j hj
    have hj' : j ∉ order := fun hmem => hj (List.mem_append_left _ hmem)
    rcases List.mem_append.mp hi with hi | hi
    · exact h.rest i hi j hj'
    · rw [List.mem_singleton.mp hi]
      exact hprec j hj'
  · rw [List.filterMap_append, runFrom_append, h.legal]
    simp [hop, hs]

theorem candidates_reverse (done : List ℕ) :
    candidates entries done.reverse = candidates entries done := by
  have hmem : ∀ i, i ∈ done.reverse ↔ i ∈ done := fun i => List.mem_reverse
  rw [candidates, candidates, live_congr hmem]

theorem isBeginning_of_reachable (hd : Describes entries ops) {c : Config S}
    (h : (problem model entries ops).Reachable model.root c) :
    IsBeginning model entries ops c.done.reverse c.state := by
  induction h with
  | start => exact ⟨by simp [FilledModel.root], by simp [FilledModel.root], .nil,
      by simp [FilledModel.root], rfl⟩
  | attempt _ hc ih =>
    obtain ⟨e, he, hattempt⟩ := mem_tries.mp hc
    obtain ⟨op, hop, s, hs, rfl⟩ := attempt_eq_some.mp hattempt
    rw [List.reverse_cons]
    exact ih.snoc hd (by rwa [candidates_reverse]) hop hs

/-- What is left of a beginning without its last operation is a beginning, and the last operation
is an attempt there. -/
theorem IsBeginning.init {order : List ℕ} {i : ℕ} {s' : S} (hd : Describes entries ops)
    (h : IsBeginning model entries ops (order ++ [i]) s') :
    ∃ s, IsBeginning model entries ops order s ∧ ∃ e ∈ candidates entries order, e.id = i ∧
      ∃ op, ops[i]? = some op ∧ model.next s op = some s' := by
  have hlt : i < ops.length := h.lt i (by simp)
  obtain ⟨e, hmem, hcall, rfl⟩ := hd.exists_entry hlt true
  obtain ⟨hnodup, -, hdisj⟩ := List.nodup_append'.mp h.nodup
  have hdone : e.id ∉ order := fun hmem => hdisj hmem (by simp)
  have hlegal := h.legal
  rw [List.filterMap_append, runFrom_append] at hlegal
  obtain ⟨s, hs, hlast⟩ := Option.bind_eq_some_iff.mp hlegal
  have hop : ops[e.id]? = some ops[e.id] := List.getElem?_eq_getElem hlt
  obtain ⟨hreal, -, hlastReal⟩ := List.pairwise_append.mp h.realTime
  -- an operation that returned before this call is neither the operation itself nor a later one
  have hself : ¬Precedes entries e.id e.id := by
    rintro ⟨a, b, hsub, ha, haid, hb, hbid⟩
    have hpair := (hd.ordered.sublist hsub)
    simp only [List.pairwise_cons, List.mem_singleton, forall_eq] at hpair
    exact hpair.1 ha hb (haid.trans hbid.symm)
  have hrest : ∀ j ∉ order, ∀ k ∈ order ++ [e.id], ¬Precedes entries j k := by
    intro j hj k hk
    rcases eq_or_ne j e.id with rfl | hne
    · rcases List.mem_append.mp hk with hk | hk
      · exact hlastReal k hk _ (by simp)
      · rw [List.mem_singleton.mp hk]
        exact hself
    · exact h.rest k hk j (by simp [hj, hne])
  refine ⟨s, ⟨hnodup, fun j hj => h.lt j (List.mem_append_left _ hj), hreal, ?_, hs⟩, e, ?_, rfl,
    ops[e.id], hop, ?_⟩
  · exact fun k hk j hj => hrest j hj k (List.mem_append_left _ hk)
  · exact (mem_candidates hd).mpr ⟨hmem, hcall, hdone, fun j hj => hrest j hj e.id (by simp)⟩
  · simpa [hop] using hlast

theorem reachable_of_isBeginning (hd : Describes entries ops) {order : List ℕ} {s : S}
    (h : IsBeginning model entries ops order s) :
    (problem model entries ops).Reachable model.root ⟨order.reverse, s⟩ := by
  induction order using List.reverseRecOn generalizing s with
  | nil =>
    obtain rfl : model.init = s := Option.some.inj h.legal
    exact .start
  | append_singleton order i ih =>
    obtain ⟨s₀, hinit, e, he, rfl, op, hop, hs⟩ := h.init hd
    refine .attempt (ih hinit) (mem_tries.mpr ⟨e, ?_, attempt_eq_some.mpr ⟨op, hop, s, hs, ?_⟩⟩)
    · rwa [candidates_reverse]
    · simp

/-- An order of all operations that the model allows and that respects the order of returns and
calls. -/
structure IsOrder (model : FilledModel S I O) (entries : List (Entry I O)) (ops : List (I × O))
    (order : List ℕ) : Prop where
  perm : order.Perm (List.range ops.length)
  realTime : order.Pairwise fun a b => ¬Precedes entries b a
  legal : (runFrom model.next model.init (order.filterMap (ops[·]?))).isSome

theorem Precedes.lt (hd : Describes entries ops) {j i : ℕ} (h : Precedes entries j i) : j < ops.length := by
  obtain ⟨a, b, hsub, -, rfl, -, -⟩ := h
  exact hd.id_lt (hsub.subset (by simp))

theorem live_eq_nil_iff (hd : Describes entries ops) {done : List ℕ} :
    live entries done = [] ↔ ∀ i < ops.length, i ∈ done := by
  rw [List.eq_nil_iff_forall_not_mem]
  constructor
  · intro h i hi
    obtain ⟨e, he, -, rfl⟩ := hd.exists_entry hi true
    by_contra hdone
    exact h e (mem_live.mpr ⟨he, hdone⟩)
  · intro h e he
    obtain ⟨hmem, hdone⟩ := mem_live.mp he
    exact hdone (h e.id (hd.id_lt hmem))

/-- A goal can be reached if and only if there is such an order. -/
theorem exists_goal_iff (hd : Describes entries ops) :
    (∃ c, (problem model entries ops).Reachable model.root c ∧ (problem model entries ops).goal c) ↔
      ∃ order, IsOrder model entries ops order := by
  constructor
  · rintro ⟨c, hc, hgoal⟩
    have hb := isBeginning_of_reachable hd hc
    have hall := (live_eq_nil_iff hd).mp (List.isEmpty_iff.mp hgoal)
    refine ⟨c.done.reverse, ?_, hb.realTime, hb.legal ▸ rfl⟩
    refine (List.perm_ext_iff_of_nodup hb.nodup List.nodup_range).mpr fun i => ?_
    rw [List.mem_range]
    exact ⟨hb.lt i, fun hi => by simpa using hall i hi⟩
  · rintro ⟨order, h⟩
    obtain ⟨s, hs⟩ := Option.isSome_iff_exists.mp h.legal
    have hmem : ∀ i, i ∈ order ↔ i < ops.length := fun i => by rw [h.perm.mem_iff, List.mem_range]
    have hb : IsBeginning model entries ops order s :=
      ⟨h.perm.nodup_iff.mpr List.nodup_range, fun i => (hmem i).mp, h.realTime,
        fun i _ j hj hprec => hj ((hmem j).mpr (hprec.lt hd)), hs⟩
    refine ⟨_, reachable_of_isBeginning hd hb, ?_⟩
    change (live entries order.reverse).isEmpty = true
    rw [List.isEmpty_iff, live_eq_nil_iff hd]
    intro i hi
    simpa using (hmem i).mpr hi

end DistributedLabs.Porcupine
