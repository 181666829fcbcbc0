import DistributedLabs.KvsrvModel
import DistributedLabs.PorcupineRefinement

/-!
# What the linearizability checker finds

`checkSingle` ends, without a panic, and its answer is right: it is true if and only if the history
has a linearization that the model allows. The sequences it returns are the longest beginnings of a
linearization with each of the operations.
-/

namespace DistributedLabs.Porcupine
open KvsrvModels LinkedNodes Linearizability MemoisedSearch

variable {S I O : Type} {model : FilledModel S I O} {entries : List (Entry I O)} {ops : List (I × O)}

theorem Describes.length_eq (hd : Describes entries ops) : entries.length = 2 * ops.length := by
  have hcalls := hd.calls.length_eq
  have hreturns := hd.returns.length_eq
  have hall := (List.filter_append_perm Entry.isCall entries).length_eq
  simp only [List.length_map, List.length_range] at hcalls hreturns
  rw [List.length_append, hcalls, hreturns] at hall
  omega

@[simp] theorem cells_nil : cells entries [] = entries.zipIdx := by
  simp [cells]

theorem exists_startSearch (hd : Describes entries ops) :
    ∃ s, startSearch model entries = some s ∧
      Refines model entries ops s ((problem model entries ops).start model.root) ∧
      s.longest = List.replicate ops.length none := by
  obtain ⟨l, hl, hcells⟩ := exists_makeLinkedEntries entries
  have hnodup := @nodup_cells _ _ entries []
  rw [cells_nil] at hnodup
  obtain ⟨heap, hinsert, hlinked, -, hothers⟩ :=
    insertBefore_head hcells.linked hnodup ⟨.nil, none, -1⟩
  have hlength : length l.heap entries.length l.root = some entries.length := by
    have hlen : (entries.zipIdx.map Prod.snd).length = entries.length := by simp
    rw [hcells.root]
    simpa [hlen] using length_of_linked hcells.linked hlen.le
  have hhalf : entries.length / 2 = ops.length := by
    have := hd.length_eq
    omega
  have hlist : ListOf entries heap [] := by
    refine ⟨by rwa [cells_nil], ?_⟩
    intro xs c ys hsplit
    have hc : c.2 < entries.length := snd_lt_of_mem_zipIdx (hsplit ▸ List.mem_append_right _ List.mem_cons_self)
    rw [hothers c.2 (by omega)]
    exact hcells.data xs c ys hsplit
  rw [← hcells.root] at hinsert
  refine ⟨⟨heap, l.root, Bitset.newBitset ops.length, fun _ => [], [],
    List.replicate ops.length none, 0, model.init⟩, ?_, ?_, rfl⟩
  · simp [startSearch, hl, hlength, hhalf, hinsert]
  · exact {
      stacked := .nil hlist
      scan := ⟨[], entries.zipIdx, cells_nil, by simp, hcells.root, by
        rw [← cells_nil]
        exact tries_eq_pending _⟩
      state := rfl
      linearized := Bitset.holds_newBitset _
      cached := by simp [Problem.start]
      cache := by simp
      longest := by simp }

variable (model entries ops) in
/-- The variables of the loop have a state of a search from the beginning in them. -/
structure Checking (s : Search S I O) (a : State (Config S)) : Prop where
  refines : Refines model entries ops s a
  sound : (problem model entries ops).Sound model.root a
  complete : (problem model entries ops).Complete a

variable {s : Search S I O} {a : State (Config S)}

theorem checking_start (hrefines : Refines model entries ops s ((problem model entries ops).start model.root)) :
    Checking model entries ops s ((problem model entries ops).start model.root) :=
  ⟨hrefines, Problem.sound_start, Problem.complete_start⟩

/-- The steps that the search may still make. -/
def workLeft (entries : List (Entry I O)) (a : State (Config S)) : ℕ :=
  a.weight (fun c => (live entries c.done).length) entries.length

theorem Checking.step (h : Checking model entries ops s a) {s' : Search S I O} {a' : State (Config S)}
    (hrefines : Refines model entries ops s' a')
    (hstep : (problem model entries ops).step a = .again a') :
    Checking model entries ops s' a' ∧ workLeft entries a' < workLeft entries a := by
  obtain ⟨hgoal, hsteps⟩ := Problem.step_again hstep
  exact ⟨⟨hrefines, h.sound.step hsteps, h.complete.step hgoal hsteps⟩,
    Problem.weight_lt bounded h.sound hsteps⟩

theorem Checking.exists_order (hd : Describes entries ops) (h : Checking model entries ops s a)
    (hfound : (problem model entries ops).step a = .found) : ∃ order, IsOrder model entries ops order :=
  (exists_goal_iff hd).mp ⟨a.top.config, h.sound.reachable a.top List.mem_cons_self,
    Problem.step_found hfound⟩

theorem Checking.not_exists_order (hd : Describes entries ops) (hequal : model.EqualSound)
    (h : Checking model entries ops s a) (hend : (problem model entries ops).step a = .exhausted) :
    ¬∃ order, IsOrder model entries ops order := by
  rw [← exists_goal_iff hd]
  rintro ⟨c, hc, hgoal⟩
  rw [h.complete.not_goal h.sound (sameSimulates hequal) hend hc] at hgoal
  cases hgoal

/-- The loop, when it is not stopped: it goes on to the end of the search. `inv` is anything that its
iterations keep. -/
theorem checkLoop_ends (hd : Describes entries ops) (computePartial : Bool)
    {inv : Search S I O → State (Config S) → Prop}
    (hinv : ∀ s a s' a', Checking model entries ops s a → inv s a →
      (problem model entries ops).step a = .again a' →
      (∀ i, s'.longest[i]? = s.longest[i]?.map (notedStep computePartial s a i)) → inv s' a')
    {fuel i : ℕ} (h : Checking model entries ops s a) (hs : inv s a) (hfuel : workLeft entries a < fuel) :
    ∃ s' a', Checking model entries ops s' a' ∧ inv s' a' ∧
      ((problem model entries ops).step a' = .found ∧
          checkLoop model computePartial entries.length (fun _ => false) fuel i s =
            .returned true (s'.longest.map fun _ =>
              some ⟨s'.sequences, a'.top.config.done.reverse.map Nat.cast⟩) ∨
        (problem model entries ops).step a' = .exhausted ∧
          checkLoop model computePartial entries.length (fun _ => false) fuel i s =
            .returned false s'.longest) := by
  induction fuel generalizing i s a with
  | zero => omega
  | succ fuel ih =>
    have hiter := h.refines.iteration computePartial hd
    cases hstep : (problem model entries ops).step a with
    | found =>
      rw [hstep] at hiter
      exact ⟨s, a, h, hs, .inl ⟨hstep, by simp [checkLoop, hiter]⟩⟩
    | exhausted =>
      rw [hstep] at hiter
      exact ⟨s, a, h, hs, .inr ⟨hstep, by simp [checkLoop, hiter]⟩⟩
    | again a' =>
      rw [hstep] at hiter
      obtain ⟨-, s', hs', hrefines, hlongest⟩ := hiter
      obtain ⟨hchecking, hlt⟩ := h.step hrefines hstep
      obtain ⟨t, b, ht, htinv, hend⟩ :=
        ih (i := i + 1) hchecking (hinv s a s' a' h hs hstep hlongest) (by omega)
      exact ⟨t, b, ht, htinv, by simpa [checkLoop, hs'] using hend⟩

/-- Enough iterations for `n` operations. -/
def iterationBound (n : ℕ) : ℕ := bound (2 * n) (2 * n + 1) + 1

theorem workLeft_start_lt (hd : Describes entries ops) :
    workLeft entries ((problem model entries ops).start model.root) < iterationBound ops.length := by
  have hle : workLeft entries ((problem model entries ops).start model.root) ≤
      bound entries.length (entries.length + 1) := by
    refine (Problem.weight_start_le bounded).trans (bound_mono _ ?_)
    exact Nat.add_le_add_right (List.length_filter_le _ _) 1
  rw [hd.length_eq] at hle
  exact Nat.lt_succ_of_le hle

theorem checkSingle_of_start (hs : startSearch model entries = some s) (computePartial : Bool)
    (kill : ℕ → Bool) (fuel : ℕ) : checkSingle model entries computePartial kill fuel =
      checkLoop model computePartial entries.length kill fuel 0 s := by
  rw [checkSingle, hs]

theorem checkSingle_eq (hd : Describes entries ops) (hequal : model.EqualSound) (computePartial : Bool)
    {fuel : ℕ} (hfuel : iterationBound ops.length ≤ fuel) :
    ∃ ok longest, checkSingle model entries computePartial (fun _ => false) fuel = .returned ok longest ∧
      (ok = true ↔ ∃ order, IsOrder model entries ops order) := by
  obtain ⟨s, hs, hrefines, -⟩ := @exists_startSearch S _ _ model _ _ hd
  obtain ⟨s', a', h, -, ⟨hstep, hloop⟩ | ⟨hstep, hloop⟩⟩ :=
    checkLoop_ends (i := 0) hd computePartial (fun _ _ _ _ _ _ _ _ => trivial)
      (checking_start hrefines) trivial ((workLeft_start_lt hd).trans_le hfuel)
  · exact ⟨true, _, (checkSingle_of_start hs _ _ _).trans hloop, by simpa using h.exists_order hd hstep⟩
  · exact ⟨false, _, (checkSingle_of_start hs _ _ _).trans hloop,
      by simpa using h.not_exists_order hd hequal hstep⟩

/-- `checkSingle` decides whether a history is linearizable. -/
theorem checkSingle_decides_linearizability (sorting : Sorting I O) (hequal : model.EqualSound)
    {history : List (Operation I O)} (htimes : ∀ op ∈ history, op.call ≤ op.ret) (computePartial : Bool)
    {fuel : ℕ} (hfuel : iterationBound history.length ≤ fuel) :
    ∃ ok longest,
      checkSingle model (makeEntries sorting history) computePartial (fun _ => false) fuel =
        .returned ok longest ∧
      (ok = true ↔ IsLinearizable model history) := by
  have hentries : EntriesOf (makeEntries sorting history) history := entriesOf_makeEntries sorting
  have hd := hentries.describes htimes
  rw [← hentries.exists_isOrder_iff]
  exact checkSingle_eq hd hequal computePartial (by simpa [operationValues] using hfuel)

theorem checkSingle_decides_overlapping : ∃ ok longest,
    checkSingle (fillDefault kvModel) (makeEntries (insertionSorting _ _) overlapping) false
      (fun _ => false) (iterationBound 2) = .returned ok longest ∧
    (ok = true ↔ IsLinearizable (fillDefault kvModel) overlapping) :=
  checkSingle_decides_linearizability _ equalSound_kvModel call_le_ret_overlapping false le_rfl

/-- A sequence of `k` operations or more was noted for operation `i`. -/
def AtLeast (longest : List (Option SeqPtr)) (i k : ℕ) : Prop :=
  ∃ seq, longest[i]? = some (some seq) ∧ k ≤ seq.seq.length

variable (model entries ops) in
/-- Only beginnings of linearizations were noted, and for each configuration that the search has left
a sequence as long as it is. -/
structure Noted (s : Search S I O) (a : State (Config S)) : Prop where
  begins : ∀ i seq, s.longest[i]? = some (some seq) → ∃ order st,
    seq.seq = order.map Nat.cast ∧ IsBeginning model entries ops order st ∧ i ∈ order
  covers : ∀ d ∈ a.seen, (∃ f ∈ a.stack, f.config = d) ∨ ∀ i ∈ d.done, AtLeast s.longest i d.done.length

theorem AtLeast.noted {longest longest' : List (Option SeqPtr)} {i k : ℕ} (h : AtLeast longest i k)
    {s : Search S I O}
    (hlongest : ∀ i, longest'[i]? = longest[i]?.map (notedStep true s a i)) : AtLeast longest' i k := by
  obtain ⟨seq, hseq, hle⟩ := h
  rw [AtLeast, hlongest, hseq]
  simp only [notedStep, notedBack, Porcupine.noted, Option.map_some, Option.all_some, decide_eq_true_eq,
    ↓reduceIte]
  split_ifs with hback hlt
  · exact ⟨_, rfl, by simp at hlt ⊢; omega⟩
  · exact ⟨seq, rfl, hle⟩
  · exact ⟨seq, rfl, hle⟩

/-- When the search goes back, the order is as long as any that was noted for its operations. -/
theorem atLeast_of_back {s : Search S I O} {longest' : List (Option SeqPtr)} {i : ℕ}
    (hrest : a.top.rest = []) (hi : i ∈ a.top.config.done) (hlt : i < s.longest.length)
    (hlongest : ∀ i, longest'[i]? = s.longest[i]?.map (notedStep true s a i)) :
    AtLeast longest' i a.top.config.done.length := by
  rw [AtLeast, hlongest, List.getElem?_eq_getElem hlt]
  simp only [notedStep, notedBack, noted, hrest, Option.map_some, List.mem_reverse, hi, true_and,
    List.isEmpty_nil, ↓reduceIte, List.length_map, List.length_reverse]
  split_ifs with hall
  · exact ⟨_, rfl, by simp⟩
  · cases hold : s.longest[i] with
    | none => simp [hold] at hall
    | some old =>
      refine ⟨old, rfl, ?_⟩
      simpa [hold] using hall

theorem Noted.step (hd : Describes entries ops) (hc : Checking model entries ops s a)
    (h : Noted model entries ops s a) {s' : Search S I O} {a' : State (Config S)}
    (hstep : (problem model entries ops).step a = .again a')
    (hlongest : ∀ i, s'.longest[i]? = s.longest[i]?.map (notedStep true s a i)) :
    Noted model entries ops s' a' where
  begins := by
    intro i seq hseq
    rw [hlongest] at hseq
    obtain ⟨old, hold, hnew⟩ := Option.map_eq_some_iff.mp hseq
    by_cases hnoted : a.top.rest.isEmpty = true ∧ i ∈ a.top.config.done.reverse ∧
        old.all fun old => a.top.config.done.reverse.length > old.seq.length
    · simp only [notedStep, notedBack, noted, hnoted.1, hnoted.2.1, List.length_map, hnoted.2.2, and_self,
        ↓reduceIte, Option.some.injEq] at hnew
      refine ⟨a.top.config.done.reverse, a.top.config.state, by rw [← hnew], ?_, hnoted.2.1⟩
      exact isBeginning_of_reachable hd (hc.sound.reachable a.top List.mem_cons_self)
    · have hsame : notedStep true s a i old = old := by
        simp only [notedStep, notedBack, noted, List.length_map, ↓reduceIte]
        split_ifs <;> simp_all
      rw [hsame] at hnew
      exact h.begins i seq (hnew ▸ hold)
  covers := by
    have hold : ∀ d ∈ a.seen, (∃ f ∈ a.stack, f.config = d) ∨
        ∀ i ∈ d.done, AtLeast s'.longest i d.done.length :=
      fun d hd => (h.covers d hd).imp id fun hall i hi => (hall i hi).noted hlongest
    obtain ⟨-, hsteps⟩ := Problem.step_again hstep
    cases hsteps with
    | failed hrest =>
      intro d hd
      refine (hold d hd).imp ?_ id
      rintro ⟨f, hf, rfl⟩
      rcases List.mem_cons.mp hf with rfl | hf
      · exact ⟨_, List.mem_cons_self, rfl⟩
      · exact ⟨f, List.mem_cons_of_mem _ hf, rfl⟩
    | known hrest =>
      intro d hd
      refine (hold d hd).imp ?_ id
      rintro ⟨f, hf, rfl⟩
      rcases List.mem_cons.mp hf with rfl | hf
      · exact ⟨_, List.mem_cons_self, rfl⟩
      · exact ⟨f, List.mem_cons_of_mem _ hf, rfl⟩
    | enter hrest =>
      intro d hd
      rcases List.mem_cons.mp hd with rfl | hd
      · exact .inl ⟨_, List.mem_cons_self, rfl⟩
      · refine (hold d hd).imp ?_ id
        rintro ⟨f, hf, rfl⟩
        rcases List.mem_cons.mp hf with rfl | hf
        · exact ⟨_, List.mem_cons_of_mem _ List.mem_cons_self, rfl⟩
        · exact ⟨f, List.mem_cons_of_mem _ (List.mem_cons_of_mem _ hf), rfl⟩
    | @back frame below hrest hbelow =>
      intro d hdseen
      rcases hold d hdseen with ⟨f, hf, rfl⟩ | hall
      · rcases List.mem_cons.mp hf with rfl | hf
        · right
          intro i hi
          refine atLeast_of_back hrest hi ?_ hlongest
          rw [hc.refines.longest]
          exact hc.refines.stacked.lt hd i hi
        · rw [hbelow] at hf
          exact .inl ⟨f, hf, rfl⟩
      · exact .inr hall

theorem noted_start {s : Search S I O} (hlongest : s.longest = List.replicate ops.length none) :
    Noted model entries ops s ((problem model entries ops).start model.root) where
  begins := by
    intro i seq hseq
    simp [hlongest, List.getElem?_replicate] at hseq
  covers := by simp [Problem.start]

theorem Like.mem_done {c d : Config S} (h : (problem model entries ops).Like c d) (i : ℕ) :
    i ∈ c.done ↔ i ∈ d.done := by
  induction h with
  | refl => rfl
  | tail _ hlast ih => exact ih.trans ((same_iff.mp hlast).1 i)

variable (model entries ops) in
/-- For each operation a longest beginning with it was noted, if there is one. -/
structure LongestNoted (longest : List (Option SeqPtr)) : Prop where
  length : longest.length = ops.length
  begins : ∀ i seq, longest[i]? = some (some seq) → ∃ order st,
    seq.seq = order.map Nat.cast ∧ IsBeginning model entries ops order st ∧ i ∈ order
  atLeast : ∀ order st, IsBeginning model entries ops order st → ∀ i ∈ order,
    AtLeast longest i order.length

/-- At the end of a search that has found nothing: everything that can be reached was entered and
left again. -/
theorem Noted.longestNoted (hd : Describes entries ops) (hequal : model.EqualSound)
    (hc : Checking model entries ops s a) (h : Noted model entries ops s a)
    (hend : (problem model entries ops).step a = .exhausted) :
    LongestNoted model entries ops s.longest where
  length := hc.refines.longest
  begins := h.begins
  atLeast := by
    intro order st horder i hi
    have hroot : ∀ f ∈ a.stack, f.config = model.root := by
      obtain ⟨-, -, hbelow⟩ := Problem.step_exhausted hend
      have hbottom := hc.sound.bottom
      simp only [State.stack, hbelow, List.getLast?_singleton, Option.map_some, Option.some.injEq,
        List.mem_singleton, forall_eq] at hbottom ⊢
      exact hbottom
    rcases hc.complete.covered hc.sound (sameSimulates hequal) hend
      (reachable_of_isBeginning hd horder) with hempty | ⟨d, hdseen, hlike⟩
    · have hnil : order.reverse = [] := congrArg Config.done hempty
      simp [List.reverse_eq_nil_iff.mp hnil] at hi
    · have hmem : ∀ j, j ∈ order ↔ j ∈ d.done := by
        intro j
        simpa using Like.mem_done hlike j
      have hdone := isBeginning_of_reachable hd (hc.sound.seen d hdseen)
      have hperm : order.Perm d.done :=
        (List.perm_ext_iff_of_nodup horder.nodup (List.nodup_reverse.mp hdone.nodup)).mpr hmem
      rcases h.covers d hdseen with ⟨f, hf, rfl⟩ | hall
      · have hid := (hmem i).mp hi
        rw [hroot f hf] at hid
        cases hid
      · rw [hperm.length_eq]
        exact hall i ((hmem i).mp hi)

theorem Checking.longestNoted (hd : Describes entries ops) (hc : Checking model entries ops s a)
    (hfound : (problem model entries ops).step a = .found) :
    LongestNoted model entries ops
      (s.longest.map fun _ => some ⟨s.sequences, a.top.config.done.reverse.map Nat.cast⟩) := by
  have hb := isBeginning_of_reachable hd (hc.sound.reachable a.top List.mem_cons_self)
  have hall := (live_eq_nil_iff hd).mp (List.isEmpty_iff.mp (Problem.step_found hfound))
  have hentry : ∀ i < ops.length, (s.longest.map fun _ =>
      some (⟨s.sequences, a.top.config.done.reverse.map Nat.cast⟩ : SeqPtr))[i]? =
        some (some ⟨s.sequences, a.top.config.done.reverse.map Nat.cast⟩) := by
    intro i hi
    rw [List.getElem?_map, List.getElem?_eq_getElem (by rwa [hc.refines.longest])]
    rfl
  refine ⟨by rw [List.length_map, hc.refines.longest], ?_, ?_⟩
  · intro i seq hseq
    have hi : i < ops.length := by
      have hlt := (List.getElem?_eq_some_iff.mp hseq).1
      rwa [List.length_map, hc.refines.longest] at hlt
    rw [hentry i hi] at hseq
    obtain rfl := Option.some.inj (Option.some.inj hseq)
    exact ⟨_, _, rfl, hb, by simpa using hall i hi⟩
  · intro order st horder i hi
    refine ⟨_, hentry i (horder.lt i hi), ?_⟩
    rw [List.length_map]
    apply (List.subperm_of_subset horder.nodup _).length_le
    intro j hj
    simpa using hall j (horder.lt j hj)

/-- With `computePartial` the checker returns, for each operation, a longest beginning of a
linearization that has the operation in it, and nil if there is none. -/
theorem checkSingle_returns_longest (sorting : Sorting I O) (hequal : model.EqualSound)
    {history : List (Operation I O)} (htimes : ∀ op ∈ history, op.call ≤ op.ret)
    {fuel : ℕ} (hfuel : iterationBound history.length ≤ fuel) :
    ∃ ok longest,
      checkSingle model (makeEntries sorting history) true (fun _ => false) fuel = .returned ok longest ∧
      longest.length = history.length ∧
      (∀ i seq, longest[i]? = some (some seq) → ∃ order, seq.seq = order.map Nat.cast ∧
        IsPartialLinearization model history order ∧ i ∈ order) ∧
      ∀ order, IsPartialLinearization model history order → ∀ i ∈ order, ∃ seq,
        longest[i]? = some (some seq) ∧ order.length ≤ seq.seq.length := by
  have hentries : EntriesOf (makeEntries sorting history) history := entriesOf_makeEntries sorting
  have hd := hentries.describes htimes
  have hlen : (operationValues history).length = history.length := List.length_map _
  obtain ⟨s, hs, hrefines, hstart⟩ := @exists_startSearch S _ _ model _ _ hd
  obtain ⟨ok, longest, hloop, h⟩ : ∃ ok longest,
      checkLoop model true (makeEntries sorting history).length (fun _ => false) fuel 0 s =
        .returned ok longest ∧
      LongestNoted model (makeEntries sorting history) (operationValues history) longest := by
    obtain ⟨s', a', hc, hnoted, ⟨hstep, hloop⟩ | ⟨hstep, hloop⟩⟩ :=
      checkLoop_ends (i := 0) hd true (fun s a s' a' hc hn hstep hlongest => hn.step hd hc hstep hlongest)
        (checking_start hrefines) (noted_start hstart) ((workLeft_start_lt hd).trans_le (hlen ▸ hfuel))
    · exact ⟨_, _, hloop, hc.longestNoted hd hstep⟩
    · exact ⟨_, _, hloop, hnoted.longestNoted hd hequal hc hstep⟩
  refine ⟨ok, longest, (checkSingle_of_start hs _ _ _).trans hloop, h.length.trans hlen, ?_, ?_⟩
  · intro i seq hseq
    obtain ⟨order, st, hseq, hb, hi⟩ := h.begins i seq hseq
    exact ⟨order, hseq, hentries.exists_isBeginning_iff.mp ⟨st, hb⟩, hi⟩
  · intro order horder i hi
    obtain ⟨st, hb⟩ := hentries.exists_isBeginning_iff.mpr horder
    exact h.atLeast order st hb i hi

theorem checkSingle_returns_longest_overlapping : ∃ ok longest,
    checkSingle (fillDefault kvModel) (makeEntries (insertionSorting _ _) overlapping) true
      (fun _ => false) (iterationBound 2) = .returned ok longest ∧ longest.length = 2 := by
  obtain ⟨ok, longest, hreturned, hlength, -⟩ := checkSingle_returns_longest (insertionSorting _ _)
    equalSound_kvModel call_le_ret_overlapping (le_refl (iterationBound 2))
  exact ⟨ok, longest, hreturned, hlength⟩

end DistributedLabs.Porcupine
