import Mathlib.Data.List.Sort
import Mathlib.Data.List.Perm.Basic
import Mathlib.Data.List.Dedup
import Mathlib.Order.Lattice

/-!
# Linearizable histories

An operation is an input with the output it was given and the times of its call and its return.
A history is linearizable if its operations can be put into one order that a sequential
specification allows and in which no operation comes before one that had returned when it was
called. Where the operations act on one key each, a history is linearizable if the operations on
each key are.
-/

namespace DistributedLabs.Linearizability

variable {ι σ τ κ : Type*}

/-- The state after operations, if each of them is allowed where it stands. -/
def runFrom (next : σ → ι → Option σ) (s : σ) (order : List ι) : Option σ := order.foldlM next s

section Runs
variable {next : σ → ι → Option σ} {s : σ}

@[simp] theorem runFrom_nil : runFrom next s [] = some s := rfl

@[simp] theorem runFrom_cons (a : ι) (order : List ι) :
    runFrom next s (a :: order) = (next s a).bind fun t => runFrom next t order := rfl

theorem runFrom_append (order order' : List ι) :
    runFrom next s (order ++ order') = (runFrom next s order).bind fun t => runFrom next t order' := by
  simp [runFrom, List.foldlM_append]

/-- Operations that act like others, by another specification. -/
theorem runFrom_filterMap {ι' : Type*} {next' : σ → ι' → Option σ} {f : ι' → Option ι} {order : List ι'}
    (hf : ∀ b ∈ order, ∃ a, f b = some a ∧ ∀ s, next s a = next' s b) :
    runFrom next s (order.filterMap f) = runFrom next' s order := by
  induction order generalizing s with
  | nil => rfl
  | cons b order ih =>
    obtain ⟨a, ha, hsame⟩ := hf b List.mem_cons_self
    rw [List.filterMap_cons_some ha, runFrom_cons, runFrom_cons, hsame]
    congr 1
    funext t
    exact ih fun b' hb' => hf b' (List.mem_cons_of_mem _ hb')

theorem runFrom_map {ι' : Type*} {next' : σ → ι' → Option σ} {f : ι' → ι} {order : List ι'}
    (hf : ∀ b ∈ order, ∀ s, next s (f b) = next' s b) :
    runFrom next s (order.map f) = runFrom next' s order := by
  rw [← List.filterMap_eq_map]
  exact runFrom_filterMap fun b hb => ⟨f b, rfl, hf b hb⟩

/-- Operations that change nothing may be left out. -/
theorem runFrom_filter {p : ι → Bool} {order : List ι} {t : σ}
    (hsame : ∀ a ∈ order, p a = false → ∀ s t, next s a = some t → t = s)
    (h : runFrom next s order = some t) : runFrom next s (order.filter p) = some t := by
  induction order generalizing s with
  | nil => exact h
  | cons a order ih =>
    rw [runFrom_cons, Option.bind_eq_some_iff] at h
    obtain ⟨s', hs', h⟩ := h
    have htail := ih (fun b hb => hsame b (List.mem_cons_of_mem _ hb)) h
    cases hp : p a with
    | true => simp [hp, hs', htail]
    | false =>
      obtain rfl := hsame a List.mem_cons_self hp s s' hs'
      simpa [hp] using htail

theorem runFrom_range {states : ℕ → σ} {f : ℕ → Option ι} {n : ℕ}
    (h : ∀ m < n, f m = none ∧ states (m + 1) = states m ∨
      ∃ a, f m = some a ∧ next (states m) a = some (states (m + 1))) :
    runFrom next (states 0) ((List.range n).filterMap f) = some (states n) := by
  induction n with
  | zero => rfl
  | succ n ih =>
    rw [List.range_succ, List.filterMap_append, runFrom_append, ih fun m hm => h m (Nat.lt_succ_of_lt hm),
      Option.bind_some]
    rcases h n (Nat.lt_succ_self n) with ⟨hnone, hsame⟩ | ⟨a, ha, hnext⟩
    · simp [hnone, hsame]
    · simp [ha, hnext]

end Runs

/-- `order` has the operations of `history`, none before one that is `before` it, and is allowed. -/
structure IsLinearization (next : σ → ι → Option σ) (s₀ : σ) (before : ι → ι → Prop)
    (history order : List ι) : Prop where
  perm : order.Perm history
  realTime : order.Pairwise fun a b => ¬before b a
  legal : (runFrom next s₀ order).isSome

def Linearizable (next : σ → ι → Option σ) (s₀ : σ) (before : ι → ι → Prop) (history : List ι) : Prop :=
  ∃ order, IsLinearization next s₀ before history order

section Records
variable {next : σ → ι → Option σ} {s₀ : σ} {before : ι → ι → Prop}

theorem Linearizable.of_pairs {pairs : List (ι × ι)}
    (h : Linearizable next s₀ before (pairs.map Prod.fst))
    (hnext : ∀ x ∈ pairs, ∀ s, next s x.2 = next s x.1)
    (hbefore : ∀ x ∈ pairs, ∀ y ∈ pairs, before x.2 y.2 → before x.1 y.1) :
    Linearizable next s₀ before (pairs.map Prod.snd) := by
  obtain ⟨order, hperm, hreal, hlegal⟩ := h
  have hfst : List.Forall₂ (fun a x => a = Prod.fst x) (pairs.map Prod.fst) pairs := by
    rw [List.forall₂_map_left_iff]
    exact List.forall₂_same.mpr fun _ _ => rfl
  obtain ⟨order', hmap, hperm'⟩ := List.perm_comp_forall₂ hperm hfst
  obtain rfl : order = order'.map Prod.fst := by
    rw [← List.forall₂_map_right_iff, List.forall₂_eq_eq_eq] at hmap
    exact hmap
  refine ⟨order'.map Prod.snd, hperm'.map _, ?_, ?_⟩
  · rw [List.pairwise_map] at hreal ⊢
    refine hreal.imp_of_mem fun hx hy hnot hbad => hnot ?_
    exact hbefore _ (hperm'.subset hy) _ (hperm'.subset hx) hbad
  · have hrun : runFrom next s₀ (order'.map Prod.fst) = runFrom (fun s x => next s x.1) s₀ order' :=
      runFrom_map fun _ _ _ => rfl
    rw [runFrom_map fun x hx => hnext x (hperm'.subset hx), ← hrun]
    exact hlegal

theorem Linearizable.recorded {n : ℕ} {op op' : ℕ → Option ι}
    (h : Linearizable next s₀ before ((List.range n).filterMap op))
    (hsame : ∀ c < n, op c = none ∧ op' c = none ∨
      ∃ a b, op c = some a ∧ op' c = some b ∧ ∀ s, next s b = next s a)
    (hbefore : ∀ c < n, ∀ c' < n, ∀ a b a' b', op c = some a → op' c = some b → op c' = some a' →
      op' c' = some b' → before b b' → before a a') :
    Linearizable next s₀ before ((List.range n).filterMap op') := by
  have hfst : ((List.range n).filterMap fun c => (op c).bind fun a => (op' c).map (a, ·)).map Prod.fst =
      (List.range n).filterMap op := by
    rw [List.map_filterMap]
    refine List.filterMap_congr fun c hc => ?_
    rcases hsame c (List.mem_range.mp hc) with ⟨ha, hb⟩ | ⟨a, b, ha, hb, -⟩ <;> simp [ha, hb]
  have hsnd : ((List.range n).filterMap fun c => (op c).bind fun a => (op' c).map (a, ·)).map Prod.snd =
      (List.range n).filterMap op' := by
    rw [List.map_filterMap]
    refine List.filterMap_congr fun c hc => ?_
    rcases hsame c (List.mem_range.mp hc) with ⟨ha, hb⟩ | ⟨a, b, ha, hb, -⟩ <;> simp [ha, hb]
  have hmem : ∀ x ∈ (List.range n).filterMap (fun c => (op c).bind fun a => (op' c).map (a, ·)),
      ∃ c < n, op c = some x.1 ∧ op' c = some x.2 := by
    intro x hx
    obtain ⟨c, hc, hx⟩ := List.mem_filterMap.mp hx
    obtain ⟨a, ha, hx⟩ := Option.bind_eq_some_iff.mp hx
    obtain ⟨b, hb, rfl⟩ := Option.map_eq_some_iff.mp hx
    exact ⟨c, List.mem_range.mp hc, ha, hb⟩
  rw [← hfst] at h
  rw [← hsnd]
  refine h.of_pairs (fun x hx => ?_) fun x hx y hy => ?_
  · obtain ⟨c, hc, ha, hb⟩ := hmem x hx
    rcases hsame c hc with ⟨hnone, -⟩ | ⟨a, b, ha', hb', hnext⟩
    · cases hnone.symm.trans ha
    · cases ha.symm.trans ha'
      cases hb.symm.trans hb'
      exact hnext
  · obtain ⟨c, hc, ha, hb⟩ := hmem x hx
    obtain ⟨c', hc', ha', hb'⟩ := hmem y hy
    exact hbefore c hc c' hc' _ _ _ _ ha hb ha' hb'

end Records

section Points
variable [LinearOrder τ] {call ret : ι → τ} {next : σ → ι → Option σ} {s₀ : σ}

/-- Each operation takes effect at a point between its call and its return. -/
theorem linearizable_of_points {history : List ι} (points : List (ι × τ))
    (perm : (points.map Prod.fst).Perm history) (sorted : points.Pairwise fun x y => x.2 ≤ y.2)
    (within : ∀ x ∈ points, call x.1 ≤ x.2 ∧ x.2 ≤ ret x.1)
    (legal : (runFrom next s₀ (points.map Prod.fst)).isSome) :
    Linearizable next s₀ (fun a b => ret a < call b) history := by
  refine ⟨points.map Prod.fst, perm, ?_, legal⟩
  rw [List.pairwise_map]
  refine sorted.imp_of_mem ?_
  intro x y hx hy hle
  exact not_lt.mpr (((within x hx).1.trans hle).trans (within y hy).2)

/-- Points for operations in order: the latest call so far. -/
def withPoints (call : ι → τ) : τ → List ι → List (ι × τ)
  | _, [] => []
  | latest, a :: order => (a, max latest (call a)) :: withPoints call (max latest (call a)) order

theorem map_fst_withPoints (latest : τ) (order : List ι) :
    (withPoints call latest order).map Prod.fst = order := by
  induction order generalizing latest with
  | nil => rfl
  | cons a order ih => simp [withPoints, ih]

theorem le_of_mem_withPoints {latest : τ} {order : List ι} {x : ι × τ}
    (hx : x ∈ withPoints call latest order) : latest ≤ x.2 := by
  induction order generalizing latest with
  | nil => cases hx
  | cons a order ih =>
    rcases List.mem_cons.mp hx with rfl | hx
    · exact le_max_left _ _
    · exact (le_max_left _ _).trans (ih hx)

theorem pairwise_withPoints (latest : τ) (order : List ι) :
    (withPoints call latest order).Pairwise fun x y => x.2 ≤ y.2 := by
  induction order generalizing latest with
  | nil => exact .nil
  | cons a order ih => exact .cons (fun x hx => le_of_mem_withPoints hx) (ih _)

theorem withPoints_within {latest : τ} {order : List ι} (hlatest : ∀ a ∈ order, latest ≤ ret a)
    (htimes : ∀ a ∈ order, call a ≤ ret a) (hreal : order.Pairwise fun a b => ¬ret b < call a) :
    ∀ x ∈ withPoints call latest order, call x.1 ≤ x.2 ∧ x.2 ≤ ret x.1 := by
  induction order generalizing latest with
  | nil => simp [withPoints]
  | cons a order ih =>
    obtain ⟨hfirst, hreal⟩ := List.pairwise_cons.mp hreal
    have hhead : max latest (call a) ≤ ret a :=
      max_le (hlatest a List.mem_cons_self) (htimes a List.mem_cons_self)
    intro x hx
    rcases List.mem_cons.mp hx with rfl | hx
    · exact ⟨le_max_right _ _, hhead⟩
    · refine ih ?_ (fun b hb => htimes b (List.mem_cons_of_mem _ hb)) hreal x hx
      intro b hb
      exact max_le (hlatest b (List.mem_cons_of_mem _ hb)) (not_lt.mp (hfirst b hb))

theorem IsLinearization.exists_points {history order : List ι}
    (h : IsLinearization next s₀ (fun a b => ret a < call b) history order)
    (htimes : ∀ a ∈ history, call a ≤ ret a) :
    ∃ points : List (ι × τ), points.map Prod.fst = order ∧
      points.Pairwise (fun x y => x.2 ≤ y.2) ∧
      ∀ x ∈ points, call x.1 ≤ x.2 ∧ x.2 ≤ ret x.1 := by
  have htimes' : ∀ a ∈ order, call a ≤ ret a := fun a ha => htimes a (h.perm.mem_iff.mp ha)
  cases order with
  | nil => exact ⟨[], rfl, .nil, by simp⟩
  | cons a order =>
    refine ⟨withPoints call (call a) (a :: order), map_fst_withPoints _ _, pairwise_withPoints _ _,
      withPoints_within ?_ htimes' h.realTime⟩
    intro b hb
    rcases List.mem_cons.mp hb with rfl | hmem
    · exact htimes' b hb
    · exact not_lt.mp ((List.pairwise_cons.mp h.realTime).1 b hmem)

/-- Calls have numbers below `n`. Some have taken effect, each once and between its call and its
return; `op` has the operation that such a call is. -/
theorem linearizable_of_effects {n : ℕ} {op : ℕ → Option ι} (effects : List (ℕ × τ))
    (nodup : (effects.map Prod.fst).Nodup)
    (complete : ∀ c, c ∈ effects.map Prod.fst ↔ c < n ∧ (op c).isSome)
    (sorted : effects.Pairwise fun x y => x.2 ≤ y.2)
    (within : ∀ x ∈ effects, ∀ a, op x.1 = some a → call a ≤ x.2 ∧ x.2 ≤ ret a)
    (legal : (runFrom next s₀ (effects.filterMap fun x => op x.1)).isSome) :
    Linearizable next s₀ (fun a b => ret a < call b) ((List.range n).filterMap op) := by
  have hfst : ((effects.filterMap fun x => (op x.1).map (·, x.2)).map Prod.fst) =
      effects.filterMap fun x => op x.1 := by
    simp [List.map_filterMap, Option.map_map, Function.comp_def]
  apply linearizable_of_points (effects.filterMap fun x => (op x.1).map (·, x.2))
  · rw [hfst]
    have hperm : (effects.map Prod.fst).Perm ((List.range n).filter fun c => (op c).isSome) := by
      rw [List.perm_ext_iff_of_nodup nodup (List.nodup_range.filter _)]
      intro c
      rw [complete, List.mem_filter, List.mem_range]
    have hop := hperm.filterMap op
    rwa [List.filterMap_map, List.filterMap_filter, List.filterMap_congr (g := op)] at hop
    intro c _
    cases op c <;> rfl
  · rw [List.pairwise_filterMap]
    refine sorted.imp ?_
    intro x y hle a ha b hb
    obtain ⟨-, -, rfl⟩ := Option.map_eq_some_iff.mp ha
    obtain ⟨-, -, rfl⟩ := Option.map_eq_some_iff.mp hb
    exact hle
  · intro y hy
    obtain ⟨x, hx, heq⟩ := List.mem_filterMap.mp hy
    obtain ⟨a, ha, rfl⟩ := Option.map_eq_some_iff.mp heq
    exact within x hx a ha
  · rwa [hfst]

/-- A log has `len` positions, and `point` says at which of them a call takes effect. The other
positions change nothing. -/
theorem linearizable_of_log {n : ℕ} {op : ℕ → Option ι} (len : ℕ) (point : ℕ → Option ℕ)
    (time : ℕ → τ) (states : ℕ → σ) (complete : ∀ c, (point c).isSome ↔ c < n ∧ (op c).isSome)
    (bounded : ∀ c m, point c = some m → m < len)
    (unique : ∀ c c' m, point c = some m → point c' = some m → c = c')
    (sorted : ∀ m m', m ≤ m' → m' < len → time m ≤ time m')
    (within : ∀ c m a, point c = some m → op c = some a → call a ≤ time m ∧ time m ≤ ret a)
    (legal : ∀ c m a, point c = some m → op c = some a → next (states m) a = some (states (m + 1)))
    (idle : ∀ m < len, (∀ c, point c ≠ some m) → states (m + 1) = states m) :
    Linearizable next (states 0) (fun a b => ret a < call b) ((List.range n).filterMap op) := by
  let owner (m : ℕ) : Option ℕ := (List.range n).find? fun c => point c = some m
  have howner : ∀ m c, owner m = some c ↔ point c = some m := by
    intro m c
    constructor
    · intro h
      simpa using List.find?_some h
    · intro h
      have hc : c < n := ((complete c).mp (by simp [h])).1
      obtain ⟨c', hc'⟩ := Option.isSome_iff_exists.mp
        ((List.find?_isSome (p := fun c => point c = some m)).mpr
          ⟨c, List.mem_range.mpr hc, by simpa using h⟩)
      have hpoint : point c' = some m := by simpa using List.find?_some hc'
      rw [unique c c' m h hpoint]
      exact hc'
  have hfst : ((List.range len).filterMap fun m => (owner m).map (·, time m)).map Prod.fst =
      (List.range len).filterMap owner := by
    simp [List.map_filterMap, Option.map_map, Function.comp_def]
  apply linearizable_of_effects ((List.range len).filterMap fun m => (owner m).map (·, time m))
  · rw [hfst]
    refine List.nodup_range.filterMap fun m m' c hm hm' => ?_
    exact Option.some.inj (((howner m c).mp hm).symm.trans ((howner m' c).mp hm'))
  · intro c
    rw [hfst, List.mem_filterMap, ← complete, Option.isSome_iff_exists]
    constructor
    · rintro ⟨m, -, hm⟩
      exact ⟨m, (howner m c).mp hm⟩
    · rintro ⟨m, hm⟩
      exact ⟨m, List.mem_range.mpr (bounded c m hm), (howner m c).mpr hm⟩
  · rw [List.pairwise_filterMap]
    refine List.pairwise_lt_range.imp_of_mem ?_
    intro m m' _ hm' hlt x hx y hy
    obtain ⟨-, -, rfl⟩ := Option.map_eq_some_iff.mp hx
    obtain ⟨-, -, rfl⟩ := Option.map_eq_some_iff.mp hy
    exact sorted m m' hlt.le (List.mem_range.mp hm')
  · intro x hx a ha
    obtain ⟨m, -, heq⟩ := List.mem_filterMap.mp hx
    obtain ⟨c, hc, rfl⟩ := Option.map_eq_some_iff.mp heq
    exact within c m a ((howner m c).mp hc) ha
  · rw [List.filterMap_filterMap, runFrom_range fun m hm => ?_, Option.isSome_some]
    cases hc : owner m with
    | none =>
      refine .inl ⟨rfl, idle m hm fun c hpoint => ?_⟩
      cases hc.symm.trans ((howner m c).mpr hpoint)
    | some c =>
      have hpoint := (howner m c).mp hc
      obtain ⟨a, ha⟩ := Option.isSome_iff_exists.mp ((complete c).mp (by simp [hpoint])).2
      exact .inr ⟨a, ha, legal c m a hpoint ha⟩

end Points

section Locality
variable [DecidableEq κ] (key : ι → κ) (next : σ → ι → Option σ)

/-- A specification for each key: an operation acts on the state of its own key. -/
def nextAt (s : κ → σ) (a : ι) : Option (κ → σ) :=
  (next (s (key a)) a).map (Function.update s (key a))

variable {key next}

theorem isSome_runFrom_nextAt (s : κ → σ) (order : List ι) :
    (runFrom (nextAt key next) s order).isSome ↔
      ∀ k, (runFrom next (s k) (order.filter fun a => key a = k)).isSome := by
  induction order generalizing s with
  | nil => simp
  | cons a order ih =>
    rw [runFrom_cons, nextAt]
    cases hnext : next (s (key a)) a with
    | none =>
      simp only [Option.map_none, Option.bind_none, Option.isSome_none, Bool.false_eq_true, false_iff,
        not_forall]
      exact ⟨key a, by simp [hnext]⟩
    | some t =>
      rw [Option.map_some, Option.bind_some, ih]
      apply forall_congr'
      intro k
      rcases eq_or_ne (key a) k with rfl | hne
      · simp [hnext]
      · simp [hne, Function.update_of_ne hne.symm]

/-- The parts of a list for different keys, one behind the other. -/
theorem flatMap_filter_perm {keys : List κ} (hkeys : keys.Nodup) (l : List ι) :
    (keys.flatMap fun k => l.filter fun a => key a = k).Perm (l.filter fun a => key a ∈ keys) := by
  induction keys with
  | nil => simp
  | cons k keys ih =>
    obtain ⟨hk, hkeys⟩ := List.nodup_cons.mp hkeys
    rw [List.flatMap_cons]
    refine (List.Perm.append_left _ (ih hkeys)).trans ?_
    refine List.Perm.trans (List.Perm.of_eq ?_)
      (List.filter_append_perm (fun a => key a = k) (l.filter fun a => key a ∈ k :: keys))
    rw [List.filter_filter, List.filter_filter]
    congr 1
    · apply List.filter_congr
      intro a _
      simp +contextual
    · apply List.filter_congr
      intro a _
      by_cases hak : key a = k
      · simp [hak, hk]
      · simp [hak]

variable [LinearOrder τ] {call ret : ι → τ} {s₀ : σ} {history : List ι}

theorem linearizable_nextAt (htimes : ∀ a ∈ history, call a ≤ ret a)
    (h : ∀ k, Linearizable next s₀ (fun a b => ret a < call b) (history.filter fun a => key a = k)) :
    Linearizable (nextAt key next) (fun _ => s₀) (fun a b => ret a < call b) history := by
  classical
  choose order horder using h
  have hpoints : ∀ k, ∃ points : List (ι × τ), points.map Prod.fst = order k ∧
      points.Pairwise (fun x y => x.2 ≤ y.2) ∧ ∀ x ∈ points, call x.1 ≤ x.2 ∧ x.2 ≤ ret x.1 :=
    fun k => (horder k).exists_points fun a ha => htimes a (List.mem_of_mem_filter ha)
  choose points hfst hsorted hwithin using hpoints
  have hkey : ∀ k, ∀ x ∈ points k, key x.1 = k := by
    intro k x hx
    have hmem : x.1 ∈ order k := hfst k ▸ List.mem_map_of_mem hx
    simpa using List.of_mem_filter ((horder k).perm.mem_iff.mp hmem)
  let keys := (history.map key).dedup
  let all := keys.flatMap points
  let merged := all.insertionSort fun x y => x.2 ≤ y.2
  have hmem : ∀ x ∈ merged, ∃ k, x ∈ points k := by
    intro x hx
    obtain ⟨k, -, hx⟩ := List.mem_flatMap.mp ((List.mem_insertionSort _).mp hx)
    exact ⟨k, hx⟩
  have hperm : (merged.map Prod.fst).Perm history := by
    calc (merged.map Prod.fst).Perm (all.map Prod.fst) := (List.perm_insertionSort _ all).map _
      _ = keys.flatMap order := by simp [all, List.map_flatMap, hfst]
      List.Perm _ (keys.flatMap fun k => history.filter fun a => key a = k) :=
        List.Perm.flatMap_left _ fun k _ => (horder k).perm
      List.Perm _ (history.filter fun a => key a ∈ keys) := flatMap_filter_perm (List.nodup_dedup _) _
      _ = history := List.filter_eq_self.mpr fun a ha => by
        simpa [keys] using ⟨a, ha, rfl⟩
  have hpart : ∀ k, (merged.map Prod.fst).filter (fun a => key a = k) = order k := by
    intro k
    have hnil : k ∉ keys → points k = [] := by
      intro hk
      have hempty : history.filter (fun a => key a = k) = [] := by
        rw [List.filter_eq_nil_iff]
        intro a ha hak
        exact hk (List.mem_dedup.mpr (List.mem_map.mpr ⟨a, ha, by simpa using hak⟩))
      have hlen := (horder k).perm.length_eq
      rw [← hfst k, hempty, List.length_map] at hlen
      exact List.length_eq_zero_iff.mp hlen
    have hsub : (points k).Sublist merged := by
      by_cases hk : k ∈ keys
      · apply List.sublist_insertionSort (hsorted k)
        exact List.sublist_flatten_of_mem (List.mem_map_of_mem hk)
      · rw [hnil hk]
        exact List.nil_sublist _
    have hsub' : (order k).Sublist ((merged.map Prod.fst).filter fun a => key a = k) := by
      have hall : (order k).filter (fun a => key a = k) = order k := by
        rw [List.filter_eq_self, ← hfst k]
        simpa using hkey k
      rw [← hall, ← hfst k]
      exact (hsub.map _).filter _
    refine (hsub'.eq_of_length ?_).symm
    rw [(horder k).perm.length_eq, (hperm.filter _).length_eq]
  refine linearizable_of_points merged hperm (List.pairwise_insertionSort _ _) ?_ ?_
  · intro x hx
    obtain ⟨k, hx⟩ := hmem x hx
    exact hwithin k x hx
  · rw [isSome_runFrom_nextAt]
    intro k
    rw [hpart]
    exact (horder k).legal

theorem linearizable_nextAt_iff (htimes : ∀ a ∈ history, call a ≤ ret a) :
    Linearizable (nextAt key next) (fun _ => s₀) (fun a b => ret a < call b) history ↔
      ∀ k, Linearizable next s₀ (fun a b => ret a < call b) (history.filter fun a => key a = k) := by
  refine ⟨?_, linearizable_nextAt htimes⟩
  rintro ⟨order, h⟩ k
  exact ⟨order.filter fun a => key a = k, h.perm.filter _, h.realTime.filter _,
    (isSome_runFrom_nextAt _ _).mp h.legal k⟩

end Locality

end DistributedLabs.Linearizability
