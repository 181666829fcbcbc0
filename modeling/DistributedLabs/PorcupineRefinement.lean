import DistributedLabs.PorcupineList

/-!
# The loop of the linearizability checker is the search

Each iteration of the loop of `checkSingle` is one step of the depth-first search over
configurations: the list in the heap has the entries that are left, `entry` is the next attempt, the
bit set has the operations in the order, the stack of calls has the configurations below, and the
cache has the configurations that were entered. None of the iterations panics.
-/

namespace DistributedLabs.Porcupine
open LinkedNodes MemoisedSearch

variable {S I O : Type} {model : FilledModel S I O} {entries : List (Entry I O)} {ops : List (I × O)}

section
variable (model entries ops)

/-- The attempts that are left where the entries `ys` have not been looked at. -/
def pending (c : Config S) (ys : List (Entry I O × ℕ)) : List (Option (Config S)) :=
  ((ys.map Prod.fst).takeWhile Entry.isCall).map (attempt model ops c)

/-- The stack of calls: each of them was taken out of a list that `unlift` brings back. -/
inductive Stacked : NodeHeap I O → List (CallsEntry S) → Config S → List (Frame (Config S)) → Prop
  | nil {heap : NodeHeap I O} (list : ListOf entries heap []) : Stacked heap [] model.root []
  | cons {heap heap' : NodeHeap I O} {calls : List (CallsEntry S)} {c : Config S}
      {below : List (Frame (Config S))} {cell : Entry I O × ℕ} {xs ys : List (Entry I O × ℕ)} {s : S}
      (rest : Stacked heap calls c below) (split : cells entries c.done = xs ++ cell :: ys)
      (front : ∀ x ∈ xs, x.1.isCall) (call : cell.1.isCall)
      (list : ListOf entries heap' (cell.1.id :: c.done)) (back : unlift heap' cell.2 = some heap) :
      Stacked heap' (⟨cell.2, c.state⟩ :: calls) ⟨cell.1.id :: c.done, s⟩
        (⟨c, pending model ops c ys⟩ :: below)

/-- The variables of the loop have a state of the search in them. -/
structure Refines (s : Search S I O) (a : State (Config S)) : Prop where
  stacked : Stacked model entries ops s.heap s.calls a.top.config a.below
  scan : ∃ xs ys, cells entries a.top.config.done = xs ++ ys ∧ (∀ x ∈ xs, x.1.isCall) ∧
    s.entry = (ys.map Prod.snd).head? ∧ a.top.rest = pending model ops a.top.config ys
  state : s.state = a.top.config.state
  linearized : s.linearized.Holds ops.length a.top.config.done
  cached : ∀ d ∈ a.seen, ∃ b : Bitset, b.Holds ops.length d.done ∧ ⟨b, d.state⟩ ∈ s.cache b.hash
  cache : ∀ hash, ∀ entry ∈ s.cache hash, ∃ d ∈ a.seen,
    entry.linearized.Holds ops.length d.done ∧ entry.state = d.state
  longest : s.longest.length = ops.length

end

theorem Stacked.list {heap : NodeHeap I O} {calls : List (CallsEntry S)} {c : Config S}
    {below : List (Frame (Config S))} (h : Stacked model entries ops heap calls c below) :
    ListOf entries heap c.done := by
  cases h with
  | nil list => exact list
  | cons _ _ _ _ list _ => exact list

theorem ListOf.exists_node {heap : NodeHeap I O} {done : List ℕ} (h : ListOf entries heap done)
    {c : Entry I O × ℕ} (hc : c ∈ entries.zipIdx) :
    ∃ node, heap c.2 = some node ∧ node.data.value = c.1.value ∧ node.data.id = c.1.id := by
  obtain ⟨us, vs, hzip⟩ := List.append_of_mem hc
  obtain ⟨node, hnode, heq⟩ := Option.map_eq_some_iff.mp (h.data us c vs hzip)
  exact ⟨node, hnode, by simp [heq, nodeData]⟩

/-- The operations of the calls are those in the order. -/
theorem Stacked.ids {heap : NodeHeap I O} {calls : List (CallsEntry S)} {c : Config S}
    {below : List (Frame (Config S))} (h : Stacked model entries ops heap calls c below)
    {heap' : NodeHeap I O} {done : List ℕ} (hlist : ListOf entries heap' done) :
    calls.reverse.mapM (fun v => (heap' v.entry).map fun node => node.data.id) =
      some (c.done.reverse.map Nat.cast) := by
  induction h with
  | nil list => rfl
  | @cons heap heap₁ calls c below cell xs ys s rest split front call list back ih =>
    have hmem : cell ∈ entries.zipIdx :=
      List.mem_of_mem_filter (split ▸ List.mem_append_right _ List.mem_cons_self)
    obtain ⟨node, hnode, -, hid⟩ := hlist.exists_node hmem
    simp [ih, hnode, hid]

theorem Stacked.length_calls {heap : NodeHeap I O} {calls : List (CallsEntry S)} {c : Config S}
    {below : List (Frame (Config S))} (h : Stacked model entries ops heap calls c below) :
    calls.length = c.done.length := by
  induction h with
  | nil => rfl
  | cons _ _ _ _ _ _ ih => simpa using ih

theorem Stacked.lt (hd : Describes entries ops) {heap : NodeHeap I O} {calls : List (CallsEntry S)}
    {c : Config S} {below : List (Frame (Config S))}
    (h : Stacked model entries ops heap calls c below) : ∀ i ∈ c.done, i < ops.length := by
  induction h with
  | nil => simp [FilledModel.root]
  | @cons heap heap₁ calls c below cell xs ys s rest split front call list back ih =>
    have hmem : cell ∈ entries.zipIdx :=
      List.mem_of_mem_filter (split ▸ List.mem_append_right _ List.mem_cons_self)
    intro i hi
    rcases List.mem_cons.mp hi with rfl | hi
    · exact hd.id_lt (mem_entries_of_mem_zipIdx hmem)
    · exact ih i hi

/-- What an operation has when a sequence is noted for the operations `ids`. -/
def noted (seq : SeqPtr) (ids : List ℕ) (i : ℕ) (old : Option SeqPtr) : Option SeqPtr :=
  if i ∈ ids ∧ (old.all fun old => seq.seq.length > old.seq.length) then some seq else old

theorem length_eq_of_getElem? {α : Type} {l l' : List α} {f : ℕ → α → α}
    (h : ∀ i, l'[i]? = l[i]?.map (f i)) : l'.length = l.length := by
  apply eq_of_forall_ge_iff
  intro i
  rw [← List.getElem?_eq_none_iff, h, Option.map_eq_none_iff, List.getElem?_eq_none_iff]

theorem exists_recordFor (seq : SeqPtr) {ids : List ℕ} {longest : List (Option SeqPtr)}
    (hids : ∀ i ∈ ids, i < longest.length) :
    ∃ longest', (ids.map Nat.cast).foldlM (recordFor seq.seq.length seq) longest = some longest' ∧
      ∀ i, longest'[i]? = longest[i]?.map (noted seq ids i) := by
  induction ids generalizing longest with
  | nil => exact ⟨longest, rfl, fun i => by cases h : longest[i]? <;> simp [noted]⟩
  | cons id ids ih =>
    obtain ⟨hid, hids⟩ := List.forall_mem_cons.mp hids
    have hfirst : recordFor seq.seq.length seq longest (id : ℤ) =
        some (longest.set id (noted seq [id] id longest[id])) := by
      simp only [recordFor, Int.toNat_natCast, List.getElem?_eq_getElem hid, Option.map_some, noted,
        List.mem_singleton, true_and]
      split_ifs <;> simp
    obtain ⟨longest', hfold, hnoted⟩ := @ih (longest.set id _) (by simpa using hids)
    refine ⟨longest', ?_, fun i => ?_⟩
    · rw [List.map_cons, List.foldlM_cons, hfirst]
      exact hfold
    · rw [hnoted, List.getElem?_set]
      rcases eq_or_ne id i with rfl | hne
      · simp only [hid, ↓reduceIte, List.getElem?_eq_getElem hid, Option.map_some, noted,
          List.mem_cons, true_or, true_and]
        split_ifs <;> simp_all
      · have hsame : noted seq (id :: ids) i = noted seq ids i := by
          funext old
          simp [noted, hne.symm]
        rw [if_neg hne, hsame]

theorem exists_recordLongest {s : Search S I O} {ids : List ℕ} (hseq : s.sequence = some (ids.map Nat.cast))
    (hlen : s.calls.length = ids.length) (hids : ∀ i ∈ ids, i < s.longest.length) :
    ∃ longest, s.recordLongest = some { s with longest, sequences := s.sequences + 1 } ∧
      ∀ i, longest[i]? = s.longest[i]?.map (noted ⟨s.sequences, ids.map Nat.cast⟩ ids i) := by
  obtain ⟨longest, hfold, hnoted⟩ := exists_recordFor ⟨s.sequences, ids.map Nat.cast⟩ hids
  refine ⟨longest, ?_, hnoted⟩
  rw [List.length_map] at hfold
  rw [Search.recordLongest, hseq, Option.bind_eq_bind, Option.bind_some, hlen, hfold]
  rfl

theorem pending_cons_call {c : Config S} {y : Entry I O × ℕ} {ys : List (Entry I O × ℕ)} (hy : y.1.isCall) :
    pending model ops c (y :: ys) = attempt model ops c y.1 :: pending model ops c ys := by
  simp [pending, hy]

theorem pending_cons_return {c : Config S} {y : Entry I O × ℕ} {ys : List (Entry I O × ℕ)}
    (hy : y.1.isCall = false) : pending model ops c (y :: ys) = [] := by
  simp [pending, hy]

theorem tries_eq_pending (c : Config S) :
    (problem model entries ops).tries c = pending model ops c (cells entries c.done) := by
  rw [pending, map_fst_cells]
  rfl

/-- Where entries are left, one of them is a return. -/
theorem exists_return_cell (hd : Describes entries ops) {done : List ℕ} {c : Entry I O × ℕ}
    (hc : c ∈ cells entries done) : ∃ r ∈ cells entries done, r.1.isCall = false := by
  obtain ⟨hzip, hdone⟩ := List.mem_filter.mp hc
  obtain ⟨r, hr, hreturn, hid⟩ := hd.exists_cell (hd.id_lt (mem_entries_of_mem_zipIdx hzip)) false
  exact ⟨r, List.mem_filter.mpr ⟨hr, by simpa [hid] using hdone⟩, hreturn⟩

variable {s : Search S I O} {a : State (Config S)}

/-- If the search is not at a goal, there is an entry to look at. -/
theorem Refines.exists_entry (hd : Describes entries ops) (h : Refines model entries ops s a)
    (hgoal : (problem model entries ops).goal a.top.config = false) :
    ∃ xs y ys, cells entries a.top.config.done = xs ++ y :: ys ∧ (∀ x ∈ xs, x.1.isCall) ∧
      s.entry = some y.2 ∧ a.top.rest = pending model ops a.top.config (y :: ys) := by
  obtain ⟨xs, ys, hsplit, hfront, hentry, hrest⟩ := h.scan
  cases ys with
  | cons y ys => exact ⟨xs, y, ys, hsplit, hfront, hentry, hrest⟩
  | nil =>
    exfalso
    have hne : cells entries a.top.config.done ≠ [] := by
      intro hnil
      have hlive : live entries a.top.config.done = [] := by rw [← map_fst_cells, hnil]; rfl
      simp [problem, hlive] at hgoal
    obtain ⟨c, hc⟩ := List.exists_mem_of_ne_nil _ hne
    obtain ⟨r, hr, hreturn⟩ := exists_return_cell hd hc
    rw [hsplit, List.append_nil] at hr
    simp [hfront r hr] at hreturn

theorem Refines.head (h : Refines model entries ops s a) :
    ∃ head, s.heap entries.length = some head ∧
      head.next = ((cells entries a.top.config.done).map Prod.snd).head? := by
  obtain ⟨⟨d, hhead⟩, -⟩ := h.stacked.list.linked
  exact ⟨_, hhead, by simp⟩

theorem goal_iff {c : Config S} :
    (problem model entries ops).goal c ↔ ((cells entries c.done).map Prod.snd).head? = none := by
  simp only [problem, ← map_fst_cells]
  cases cells entries c.done <;> simp

theorem Refines.sequence (h : Refines model entries ops s a) :
    s.sequence = some (a.top.config.done.reverse.map Nat.cast) :=
  h.stacked.ids h.stacked.list

theorem Cache.mem_append {cache : Cache S} {new entry : CacheEntry S} {hash : UInt64} :
    entry ∈ cache.append new hash ↔ entry ∈ cache hash ∨ hash = new.linearized.hash ∧ entry = new := by
  unfold Cache.append
  rcases eq_or_ne hash new.linearized.hash with rfl | hne
  · simp
  · simp [hne]

theorem Refines.cacheContains_iff (h : Refines model entries ops s a) {c : Config S} {b : Bitset}
    (hb : b.Holds ops.length c.done) :
    cacheContains model s.cache ⟨b, c.state⟩ = a.seen.any ((problem model entries ops).same c) := by
  rw [Bool.eq_iff_iff, List.any_eq_true, cacheContains, List.any_eq_true]
  constructor
  · rintro ⟨entry, hentry, hequal⟩
    obtain ⟨d, hd, hholds, hstate⟩ := h.cache _ _ hentry
    rw [Bool.and_eq_true, hb.equals_iff hholds, hstate] at hequal
    exact ⟨d, hd, same_iff.mpr hequal⟩
  · rintro ⟨d, hd, hsame⟩
    obtain ⟨hdone, hstate⟩ := same_iff.mp hsame
    obtain ⟨b', hb', hmem⟩ := h.cached d hd
    have hequals : b.equals b' := (hb.equals_iff hb').mpr hdone
    rw [← Bitset.equals_iff.mp hequals] at hmem hb'
    exact ⟨_, hmem, by simp [hstate, (hb.equals_iff hb').mpr hdone]⟩

/-- Only the entry moves on. -/
theorem Refines.skip (h : Refines model entries ops s a) {xs ys : List (Entry I O × ℕ)}
    {y : Entry I O × ℕ} (hsplit : cells entries a.top.config.done = xs ++ y :: ys)
    (hfront : ∀ x ∈ xs, x.1.isCall) (hy : y.1.isCall) :
    Refines model entries ops { s with entry := (ys.map Prod.snd).head? }
      (a.skip (pending model ops a.top.config ys)) where
  stacked := h.stacked
  scan := by
    refine ⟨xs ++ [y], ys, by rwa [List.append_assoc], ?_, rfl, rfl⟩
    intro x hx
    rcases List.mem_append.mp hx with hx | hx
    · exact hfront x hx
    · rwa [List.mem_singleton.mp hx]
  state := h.state
  linearized := h.linearized
  cached := h.cached
  cache := h.cache
  longest := h.longest

theorem Describes.values (hd : Describes entries ops) {c r : Entry I O × ℕ} (hc : c ∈ entries.zipIdx)
    (hr : r ∈ entries.zipIdx) (hcall : c.1.isCall) (hreturn : r.1.isCall = false)
    (hid : r.1.id = c.1.id) :
    ∃ op, ops[c.1.id]? = some op ∧ c.1.value = .input op.1 ∧ r.1.value = .output op.2 := by
  have hlt : c.1.id < ops.length := hd.id_lt (mem_entries_of_mem_zipIdx hc)
  have hop : ops[c.1.id]? = some ops[c.1.id] := List.getElem?_eq_getElem hlt
  have hvalue := hd.value c.1 (mem_entries_of_mem_zipIdx hc) _ hop
  have hvalue' := hd.value r.1 (mem_entries_of_mem_zipIdx hr) _ (by rwa [hid])
  exact ⟨_, hop, by simpa [hcall] using hvalue, by simpa [hreturn] using hvalue'⟩

/-- The search enters the configuration behind a call. -/
theorem Refines.enter (h : Refines model entries ops s a) {xs ys : List (Entry I O × ℕ)}
    {y : Entry I O × ℕ} (hsplit : cells entries a.top.config.done = xs ++ y :: ys)
    (hfront : ∀ x ∈ xs, x.1.isCall) (hy : y.1.isCall) {heap : NodeHeap I O}
    (hlist : ListOf entries heap (y.1.id :: a.top.config.done)) (hback : unlift heap y.2 = some s.heap)
    {b : Bitset} (hb : b.Holds ops.length (y.1.id :: a.top.config.done)) (state : S) :
    Refines model entries ops
      { s with
        heap, state
        linearized := b
        calls := ⟨y.2, s.state⟩ :: s.calls
        cache := s.cache.append ⟨b, state⟩
        entry := ((cells entries (y.1.id :: a.top.config.done)).map Prod.snd).head? }
      ((problem model entries ops).enter a ⟨y.1.id :: a.top.config.done, state⟩
        (pending model ops a.top.config ys)) where
  stacked := by
    rw [h.state]
    exact .cons h.stacked hsplit hfront hy hlist hback
  scan := by
    exact ⟨[], _, rfl, by simp, rfl, tries_eq_pending _⟩
  state := rfl
  linearized := hb
  cached := by
    intro d hd
    rcases List.mem_cons.mp hd with rfl | hd
    · exact ⟨b, hb, Cache.mem_append.mpr (.inr ⟨rfl, rfl⟩)⟩
    · obtain ⟨b', hb', hmem⟩ := h.cached d hd
      exact ⟨b', hb', Cache.mem_append.mpr (.inl hmem)⟩
  cache := by
    intro hash entry hentry
    rcases Cache.mem_append.mp hentry with hentry | ⟨-, rfl⟩
    · obtain ⟨d, hd, hholds⟩ := h.cache hash entry hentry
      exact ⟨d, List.mem_cons_of_mem _ hd, hholds⟩
    · exact ⟨_, List.mem_cons_self, hb, rfl⟩
  longest := h.longest

theorem Refines.tryCall (hd : Describes entries ops) (h : Refines model entries ops s a)
    {xs ys : List (Entry I O × ℕ)} {y : Entry I O × ℕ}
    (hsplit : cells entries a.top.config.done = xs ++ y :: ys) (hfront : ∀ x ∈ xs, x.1.isCall)
    (hy : y.1.isCall) (hgoal : (problem model entries ops).goal a.top.config = false)
    (hrest : a.top.rest = pending model ops a.top.config (y :: ys)) :
    ∃ node m s' a', s.heap y.2 = some node ∧ node.data.matching = some m ∧
      tryCall model entries.length y.2 m node s = some s' ∧
      (problem model entries ops).step a = .again a' ∧ Refines model entries ops s' a' ∧
      s'.longest = s.longest := by
  have hlist := h.stacked.list
  obtain ⟨r, hr, hreturn, hid, ⟨node, hnode, hm⟩, heap, hlift, hlist', hback⟩ :=
    hlist.lift hd hsplit hy
  obtain ⟨_, hnode', hnext, hvalue, hnodeid, -⟩ := hlist.node hsplit
  obtain rfl := Option.some.inj (hnode.symm.trans hnode')
  have hyzip : y ∈ entries.zipIdx :=
    List.mem_of_mem_filter (hsplit ▸ List.mem_append_right _ List.mem_cons_self)
  have hrzip : r ∈ entries.zipIdx :=
    List.mem_of_mem_filter (hsplit ▸ List.mem_append_right _ (List.mem_cons_of_mem _ hr))
  obtain ⟨op, hop, hin, hout⟩ := hd.values hyzip hrzip hy hreturn hid
  obtain ⟨mnode, hmnode, hmvalue, -⟩ := hlist.exists_node hrzip
  have hlt : y.1.id < ops.length := hd.id_lt (mem_entries_of_mem_zipIdx hyzip)
  obtain ⟨b, hset, hb⟩ := h.linearized.set hlt
  obtain ⟨⟨_, hhead⟩, -⟩ := hlist'.linked
  have hskip := h.skip hsplit hfront hy
  rw [← hnext] at hskip
  have hattempt : attempt model ops a.top.config y.1 =
      (model.next a.top.config.state op).map (⟨y.1.id :: a.top.config.done, ·⟩) := by
    simp [attempt, hop]
  rw [pending_cons_call hy, hattempt, FilledModel.next] at hrest
  have htry : Porcupine.tryCall model entries.length y.2 r.2 node s =
      if (model.step a.top.config.state op.1 op.2).1 then
        if cacheContains model s.cache ⟨b, (model.step a.top.config.state op.1 op.2).2⟩ then
          some { s with entry := node.next }
        else some { s with
          heap
          state := (model.step a.top.config.state op.1 op.2).2
          linearized := b
          calls := ⟨y.2, s.state⟩ :: s.calls
          cache := s.cache.append ⟨b, (model.step a.top.config.state op.1 op.2).2⟩
          entry := ((cells entries (y.1.id :: a.top.config.done)).map Prod.snd).head? }
      else some { s with entry := node.next } := by
    simp [Porcupine.tryCall, hmnode, hvalue, hin, hmvalue, hout, Value.asInput, Value.asOutput, h.state,
      hnodeid, hset, hlift, hhead]
  refine ⟨node, r.2, ?_⟩
  by_cases hok : (model.step a.top.config.state op.1 op.2).1
  · rw [if_pos hok] at htry hrest
    have hcontains := h.cacheContains_iff (c := ⟨y.1.id :: a.top.config.done,
      (model.step a.top.config.state op.1 op.2).2⟩) hb
    by_cases hseen : cacheContains model s.cache ⟨b, (model.step a.top.config.state op.1 op.2).2⟩
    · rw [if_pos hseen] at htry
      refine ⟨_, _, hnode, hm, htry, ?_, hskip, rfl⟩
      rw [hcontains] at hseen
      simp [Problem.step, hgoal, hrest, hseen]
    · rw [if_neg hseen] at htry
      refine ⟨_, _, hnode, hm, htry, ?_, h.enter hsplit hfront hy hlist' hback hb _, rfl⟩
      rw [hcontains] at hseen
      simp [Problem.step, hgoal, hrest, hseen]
  · rw [if_neg hok] at htry hrest
    refine ⟨_, _, hnode, hm, htry, ?_, hskip, rfl⟩
    simp [Problem.step, hgoal, hrest]

section Backtrack
variable (computePartial : Bool)

/-- What the operations have as longest orders when the last call is put back. -/
def notedBack (s : Search S I O) (done : List ℕ) (i : ℕ) (old : Option SeqPtr) : Option SeqPtr :=
  if computePartial then noted ⟨s.sequences, done.reverse.map Nat.cast⟩ done.reverse i old else old

/-- No call is left to try: the last operation is put back, and the search goes back to the
configuration before it. -/
theorem Refines.backtrack (hd : Describes entries ops) (h : Refines model entries ops s a)
    {callsTop : CallsEntry S} {calls : List (CallsEntry S)} (hcalls : s.calls = callsTop :: calls) :
    ∃ s' frame below, backtrack computePartial s callsTop calls = some s' ∧
      a.below = frame :: below ∧ Refines model entries ops s' ⟨frame, below, a.seen⟩ ∧
      ∀ i, s'.longest[i]? = s.longest[i]?.map (notedBack computePartial s a.top.config.done i) := by
  have hstacked := h.stacked
  have hlin := h.linearized
  have hlist := hstacked.list
  have hlt := hstacked.lt hd
  have hseq := h.sequence
  have hlen := hstacked.length_calls
  obtain ⟨longest, sequences, hrecord, hnoted⟩ : ∃ longest sequences,
      s.recordPartial computePartial = some { s with longest, sequences } ∧
      ∀ i, longest[i]? = s.longest[i]?.map (notedBack computePartial s a.top.config.done i) := by
    unfold notedBack
    cases computePartial with
    | false => exact ⟨s.longest, s.sequences, rfl, by simp⟩
    | true =>
      obtain ⟨longest, hrecord, hnoted⟩ := exists_recordLongest hseq (by simpa using hlen)
        (by simpa [h.longest] using hlt)
      exact ⟨longest, _, hrecord, by simpa using hnoted⟩
  have hlongest : longest.length = ops.length := (length_eq_of_getElem? hnoted).trans h.longest
  generalize hc : a.top.config = c at *
  generalize hb : a.below = below at *
  rw [hcalls] at hstacked
  cases hstacked with
  | @cons heap _ _ c _ cell xs ys _ rest split front call list back =>
    have hcell : cell ∈ entries.zipIdx :=
      List.mem_of_mem_filter (split ▸ List.mem_append_right _ List.mem_cons_self)
    have hdone : cell.1.id ∉ c.done := by
      have := List.of_mem_filter (split ▸ List.mem_append_right xs (List.mem_cons_self (l := ys)))
      simpa using this
    obtain ⟨node, hnode, -, hid⟩ := list.exists_node hcell
    obtain ⟨bits, hclear, hbits⟩ := hlin.clear (hlt _ List.mem_cons_self) hdone
    obtain ⟨node', hnode', hnext, -⟩ := rest.list.node split
    refine ⟨{ s with
        heap, calls, longest, sequences
        state := c.state
        linearized := bits
        entry := (ys.map Prod.snd).head? },
      _, _, ?_, rfl, ⟨rest, ⟨xs ++ [cell], ys, by rwa [List.append_assoc], ?_, rfl, rfl⟩, rfl, hbits,
        h.cached, h.cache, hlongest⟩, hnoted⟩
    · rw [Porcupine.backtrack, hrecord]
      simp [hnode, hid, hclear, back, hnode', hnext]
    · intro x hx
      rcases List.mem_append.mp hx with hx | hx
      · exact front x hx
      · rwa [List.mem_singleton.mp hx]

theorem Refines.calls_eq_nil_iff (h : Refines model entries ops s a) : s.calls = [] ↔ a.below = [] := by
  have hstacked := h.stacked
  generalize a.top.config = c at hstacked
  generalize s.calls = calls, a.below = below at *
  cases hstacked <;> simp

/-- The longest orders behind an iteration that leaves `a` for another state. -/
def notedStep (s : Search S I O) (a : State (Config S)) (i : ℕ) (old : Option SeqPtr) : Option SeqPtr :=
  if a.top.rest.isEmpty then notedBack computePartial s a.top.config.done i old else old

/-- An iteration of the loop is a step of the search. -/
theorem Refines.iteration (hd : Describes entries ops) (h : Refines model entries ops s a) :
    match (problem model entries ops).step a with
    | .found => ∀ killed, iteration model computePartial entries.length killed s =
        some (.returned true
          (s.longest.map fun _ => some ⟨s.sequences, a.top.config.done.reverse.map Nat.cast⟩))
    | .exhausted => ∀ killed, iteration model computePartial entries.length killed s =
        some (.returned false s.longest)
    | .again a' => iteration model computePartial entries.length true s =
          some (.returned false s.longest) ∧
        ∃ s', iteration model computePartial entries.length false s = some (.again s') ∧
          Refines model entries ops s' a' ∧
          ∀ i, s'.longest[i]? = s.longest[i]?.map (notedStep computePartial s a i) := by
  obtain ⟨head, hhead, hnext⟩ := h.head
  cases hgoal : (problem model entries ops).goal a.top.config with
  | true =>
    have hstep : (problem model entries ops).step a = .found := by simp [Problem.step, hgoal]
    rw [hstep]
    intro killed
    rw [goal_iff.mp hgoal] at hnext
    simp [Porcupine.iteration, hhead, hnext, h.sequence]
  | false =>
    have hnext' : head.next ≠ none := by
      rw [hnext]
      intro hnone
      simp [goal_iff.mpr hnone] at hgoal
    obtain ⟨xs, y, ys, hsplit, hfront, hentry, hrest⟩ := h.exists_entry hd hgoal
    cases hy : y.1.isCall with
    | true =>
      obtain ⟨node, m, s', a', hnode, hm, htry, hstep, hrefines, hlongest⟩ :=
        h.tryCall hd hsplit hfront hy hgoal hrest
      rw [hstep]
      refine ⟨by simp [Porcupine.iteration, hhead, hnext'], s', ?_, hrefines, ?_⟩
      · simp [Porcupine.iteration, hhead, hnext', hentry, hnode, hm, htry]
      · intro i
        have hsame : notedStep computePartial s a i = id := by
          funext old
          simp [notedStep, hrest, pending_cons_call hy]
        rw [hlongest, hsame, Option.map_id_apply]
    | false =>
      obtain ⟨node, hnode, -, -, -, hm⟩ := h.stacked.list.node hsplit
      rw [pending_cons_return hy] at hrest
      cases hcalls : s.calls with
      | nil =>
        have hbelow := h.calls_eq_nil_iff.mp hcalls
        have hstep : (problem model entries ops).step a = .exhausted := by
          simp [Problem.step, hgoal, hrest, hbelow]
        rw [hstep]
        intro killed
        simp [Porcupine.iteration, hhead, hnext', hentry, hnode, hm hy, hcalls]
      | cons callsTop calls =>
        obtain ⟨s', frame, below, hback, hbelow, hrefines, hlongest⟩ :=
          h.backtrack computePartial hd hcalls
        have hstep : (problem model entries ops).step a = .again ⟨frame, below, a.seen⟩ := by
          simp [Problem.step, hgoal, hrest, hbelow]
        rw [hstep]
        refine ⟨by simp [Porcupine.iteration, hhead, hnext'], s', ?_, hrefines, ?_⟩
        · simp [Porcupine.iteration, hhead, hnext', hentry, hnode, hm hy, hcalls, hback]
        · intro i
          rw [hlongest]
          congr 1
          funext old
          simp [notedStep, hrest]

end Backtrack

end DistributedLabs.Porcupine
