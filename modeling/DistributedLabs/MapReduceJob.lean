import Mathlib.Data.List.Dedup
import Mathlib.Data.List.Induction
import Mathlib.Data.List.Perm.Basic
import Mathlib.Data.List.Sort
import Mathlib.Order.Defs.LinearOrder
import Mathlib.Tactic.SplitIfs

/-!
# MapReduce jobs

What a job computes: the pairs that a map task writes, the lines that a reduce task
writes, and the lines that `mrsequential` writes. The pairs of all map tasks that
belong to one reduce task are those of the sequential run with its keys, in some
order, so the lines of all reduce tasks together are those of the sequential run.
-/

namespace DistributedLabs.MapReduce

structure KeyValue (K V : Type) where
  key : K
  value : V
  deriving DecidableEq

/-- A job, with the parts of the Go library that it uses. Files have names of type `F` and
contents of type `T`, a pair is encoded as a `J`, and a line of output is an `L`. -/
structure Job (F T K V J L : Type) where
  mapf : F → T → List (KeyValue K V)
  reducef : K → List V → V
  files : List F
  content : F → T
  nReduce : ℕ
  ihash : K → ℕ
  sortByKey : List (KeyValue K V) → List (KeyValue K V)
  sortStrings : List K → List K
  encode : KeyValue K V → J
  decode : J → Option (KeyValue K V)
  fprintf : K → V → L

namespace Job
variable {F T K V J L : Type} [LinearOrder K] (job : Job F T K V J L)

/-- The values of a key, as a map from keys to lists of values collects them. -/
def valuesOf (kvs : List (KeyValue K V)) (key : K) : List V :=
  (kvs.filter fun kv => kv.key = key).map KeyValue.value

def keysOf (kvs : List (KeyValue K V)) : List K := (kvs.map KeyValue.key).dedup

/-- The loop of `mrsequential` over the sorted pairs, inside the run of a key. -/
def reduceRun (key : K) (values : List V) : List (KeyValue K V) → List L
  | [] => [job.fprintf key (job.reducef key values)]
  | kv :: rest =>
    if kv.key = key then reduceRun key (values ++ [kv.value]) rest
    else job.fprintf key (job.reducef key values) :: reduceRun kv.key [kv.value] rest

def reduceRuns : List (KeyValue K V) → List L
  | [] => []
  | kv :: rest => job.reduceRun kv.key [kv.value] rest

def intermediate : List (KeyValue K V) :=
  job.files.flatMap fun filename => job.mapf filename (job.content filename)

/-- The lines that `mrsequential` writes. -/
def mrsequential : List L := job.reduceRuns (job.sortByKey job.intermediate)

/-- The reduce task of a key. -/
def reduceId (key : K) : ℕ := job.ihash key % job.nReduce

/-- What `mapf` emits for an input file. -/
def emitted (m : ℕ) : List (KeyValue K V) :=
  match job.files[m]? with
  | none => []
  | some filename => job.mapf filename (job.content filename)

/-- The map `key_group` of a map task, written out for an order in which its keys are visited. -/
def entries (kva : List (KeyValue K V)) (order : List K) : List (KeyValue K V) :=
  order.flatMap fun key => (valuesOf kva key).map fun value => ⟨key, value⟩

/-- The pairs that a map task has for a reduce task. -/
def partition (m r : ℕ) : List (KeyValue K V) :=
  (job.emitted m).filter fun kv => job.reduceId kv.key = r

/-- The lines of a reduce task that has read the pairs. -/
def reduceLines (kvs : List (KeyValue K V)) : List L :=
  (job.sortStrings (keysOf kvs)).map fun key =>
    job.fprintf key (job.reducef key (valuesOf kvs key))

/-- What the job may rely on. -/
structure Lawful : Prop where
  nReduce : 0 < job.nReduce
  /-- the order of the values does not matter -/
  reducef : ∀ key values values', values.Perm values' →
    job.reducef key values = job.reducef key values'
  sortByKey_perm : ∀ kvs, (job.sortByKey kvs).Perm kvs
  sortByKey_sorted : ∀ kvs, (job.sortByKey kvs).Pairwise fun kv kv' => kv.key ≤ kv'.key
  sortStrings_perm : ∀ keys, (job.sortStrings keys).Perm keys
  /-- a pair that was emitted comes back as it was -/
  decode_encode : ∀ m, ∀ kv ∈ job.emitted m, job.decode (job.encode kv) = some kv

section KeysAndValues
variable {job}

theorem mem_keysOf {kvs : List (KeyValue K V)} {key : K} :
    key ∈ keysOf kvs ↔ ∃ kv ∈ kvs, kv.key = key := by
  rw [keysOf, List.mem_dedup, List.mem_map]

theorem nodup_keysOf (kvs : List (KeyValue K V)) : (keysOf kvs).Nodup := List.nodup_dedup _

theorem valuesOf_cons_self (kv : KeyValue K V) (rest : List (KeyValue K V)) :
    valuesOf (kv :: rest) kv.key = kv.value :: valuesOf rest kv.key := by
  simp [valuesOf]

theorem valuesOf_cons_of_ne {kv : KeyValue K V} {key : K} (h : kv.key ≠ key)
    (rest : List (KeyValue K V)) : valuesOf (kv :: rest) key = valuesOf rest key := by
  simp [valuesOf, h]

theorem valuesOf_eq_nil {kvs : List (KeyValue K V)} {key : K} (h : ∀ kv ∈ kvs, kv.key ≠ key) :
    valuesOf kvs key = [] := by
  rw [valuesOf, List.map_eq_nil_iff, List.filter_eq_nil_iff]
  intro kv hkv
  simpa using h kv hkv

theorem valuesOf_perm {kvs kvs' : List (KeyValue K V)} (h : kvs.Perm kvs') (key : K) :
    (valuesOf kvs key).Perm (valuesOf kvs' key) := (h.filter _).map _

theorem keysOf_perm {kvs kvs' : List (KeyValue K V)} (h : kvs.Perm kvs') :
    (keysOf kvs).Perm (keysOf kvs') := (h.map _).dedup

theorem valuesOf_filter {p : K → Bool} {key : K} (h : p key) (kvs : List (KeyValue K V)) :
    valuesOf (kvs.filter fun kv => p kv.key) key = valuesOf kvs key := by
  rw [valuesOf, List.filter_filter, valuesOf]
  congr 1
  apply List.filter_congr
  intro kv _
  by_cases hkey : kv.key = key
  · simp [hkey, h]
  · simp [hkey]

theorem keysOf_filter (p : K → Bool) (kvs : List (KeyValue K V)) :
    (keysOf (kvs.filter fun kv => p kv.key)).Perm ((keysOf kvs).filter p) := by
  apply (List.perm_ext_iff_of_nodup (nodup_keysOf _) ((nodup_keysOf kvs).filter p)).mpr
  intro key
  simp only [List.mem_filter, mem_keysOf]
  constructor
  · rintro ⟨kv, ⟨hkv, hp⟩, rfl⟩
    exact ⟨⟨kv, hkv, rfl⟩, hp⟩
  · rintro ⟨⟨kv, hkv, rfl⟩, hp⟩
    exact ⟨kv, ⟨hkv, hp⟩, rfl⟩

theorem keysOf_cons (kv : KeyValue K V) (rest : List (KeyValue K V)) :
    (keysOf (kv :: rest)).Perm (kv.key :: (keysOf rest).filter fun k => k ≠ kv.key) := by
  have hnodup : (kv.key :: (keysOf rest).filter fun k => k ≠ kv.key).Nodup := by
    refine List.nodup_cons.mpr ⟨fun hmem => ?_, (nodup_keysOf rest).filter _⟩
    exact of_decide_eq_true (List.mem_filter.mp hmem).2 rfl
  apply (List.perm_ext_iff_of_nodup (nodup_keysOf _) hnodup).mpr
  intro key
  simp only [List.mem_cons, List.mem_filter, mem_keysOf, exists_eq_or_imp]
  rcases eq_or_ne key kv.key with rfl | hne
  · simp
  · simp [hne, hne.symm]

end KeysAndValues

/-- The line of a key, given all its values. -/
def lineOf (kvs : List (KeyValue K V)) (key : K) : L :=
  job.fprintf key (job.reducef key (valuesOf kvs key))

variable {job}

theorem map_lineOf_cons (kv : KeyValue K V) (rest : List (KeyValue K V)) :
    ((keysOf rest).filter fun k => k ≠ kv.key).map (job.lineOf (kv :: rest)) =
      ((keysOf rest).filter fun k => k ≠ kv.key).map (job.lineOf rest) := by
  refine List.map_congr_left fun key hkey => ?_
  have hne : key ≠ kv.key := of_decide_eq_true (List.mem_filter.mp hkey).2
  rw [lineOf, lineOf, valuesOf_cons_of_ne hne.symm]

theorem reduceRun_perm {key : K} {values : List V} {rest : List (KeyValue K V)}
    (hsorted : rest.Pairwise fun kv kv' => kv.key ≤ kv'.key) (hle : ∀ kv ∈ rest, key ≤ kv.key) :
    (job.reduceRun key values rest).Perm
      (job.fprintf key (job.reducef key (values ++ valuesOf rest key)) ::
        ((keysOf rest).filter fun k => k ≠ key).map (job.lineOf rest)) := by
  induction rest generalizing key values with
  | nil => simp [reduceRun, valuesOf, keysOf]
  | cons kv rest ih =>
    obtain ⟨hkv, hsorted⟩ := List.pairwise_cons.mp hsorted
    rw [reduceRun]
    split_ifs with hkey
    · subst hkey
      refine (ih hsorted hkv).trans ?_
      rw [valuesOf_cons_self, List.append_assoc, List.singleton_append]
      refine List.Perm.cons _ ?_
      refine List.Perm.trans ?_ (((keysOf_cons kv rest).filter _).map _).symm
      have hfilter : (kv.key :: (keysOf rest).filter fun k => k ≠ kv.key).filter
          (fun k => k ≠ kv.key) = (keysOf rest).filter fun k => k ≠ kv.key := by
        simp [List.filter_filter]
      rw [hfilter, map_lineOf_cons]
    · have hlt : key < kv.key := lt_of_le_of_ne (hle kv List.mem_cons_self) (Ne.symm hkey)
      have hnone : ∀ kv' ∈ kv :: rest, kv'.key ≠ key := by
        intro kv' hkv' heq
        rcases List.mem_cons.mp hkv' with rfl | hkv'
        · exact hkey heq
        · exact absurd (hkv kv' hkv') (not_le.mpr (heq ▸ hlt))
      have hall : (keysOf (kv :: rest)).filter (fun k => k ≠ key) = keysOf (kv :: rest) := by
        refine List.filter_eq_self.mpr fun k hk => ?_
        obtain ⟨kv', hkv', rfl⟩ := mem_keysOf.mp hk
        exact decide_eq_true (hnone kv' hkv')
      rw [valuesOf_eq_nil hnone, List.append_nil, hall]
      refine List.Perm.cons _ ((ih hsorted hkv).trans ?_)
      refine List.Perm.trans ?_ ((keysOf_cons kv rest).map _).symm
      rw [List.map_cons, map_lineOf_cons, lineOf, valuesOf_cons_self, List.singleton_append]

theorem reduceRuns_perm {kvs : List (KeyValue K V)}
    (hsorted : kvs.Pairwise fun kv kv' => kv.key ≤ kv'.key) :
    (job.reduceRuns kvs).Perm ((keysOf kvs).map (job.lineOf kvs)) := by
  cases kvs with
  | nil => exact .nil
  | cons kv rest =>
    obtain ⟨hkv, hsorted⟩ := List.pairwise_cons.mp hsorted
    refine (reduceRun_perm hsorted hkv).trans ?_
    refine List.Perm.trans ?_ ((keysOf_cons kv rest).map _).symm
    rw [List.map_cons, map_lineOf_cons, lineOf, valuesOf_cons_self, List.singleton_append]

theorem map_lineOf_perm (h : job.Lawful) {kvs kvs' : List (KeyValue K V)} (hperm : kvs.Perm kvs') :
    ((keysOf kvs).map (job.lineOf kvs)).Perm ((keysOf kvs').map (job.lineOf kvs')) := by
  have hline : job.lineOf kvs = job.lineOf kvs' := by
    funext key
    rw [lineOf, lineOf, h.reducef key _ _ (valuesOf_perm hperm key)]
  rw [hline]
  exact (keysOf_perm hperm).map _

theorem mrsequential_perm (h : job.Lawful) :
    job.mrsequential.Perm ((keysOf job.intermediate).map (job.lineOf job.intermediate)) :=
  (reduceRuns_perm (h.sortByKey_sorted _)).trans (map_lineOf_perm h (h.sortByKey_perm _))

omit [LinearOrder K] in
theorem flatMap_emitted : (List.range job.files.length).flatMap job.emitted = job.intermediate := by
  have hfiles : ∀ (files : List F) (g : F → List (KeyValue K V)),
      (List.range files.length).flatMap (fun m => (files[m]?).elim [] g) = files.flatMap g := by
    intro files g
    induction files using List.reverseRecOn with
    | nil => rfl
    | append_singleton files f ih =>
      rw [List.length_append, List.length_singleton, List.range_succ, List.flatMap_append,
        List.flatMap_append, ← ih]
      congr 1
      · refine List.flatMap_congr fun m hm => ?_
        rw [List.getElem?_append_left (List.mem_range.mp hm)]
      · simp
  rw [intermediate, ← hfiles]
  refine List.flatMap_congr fun m _ => ?_
  unfold emitted
  cases job.files[m]? <;> rfl

theorem flatMap_filter_perm {α κ : Type} [DecidableEq κ] (f : α → κ) {order : List κ}
    (hnodup : order.Nodup) (l : List α) (h : ∀ a ∈ l, f a ∈ order) :
    (order.flatMap fun k => l.filter fun a => f a = k).Perm l := by
  induction order generalizing l with
  | nil =>
    have hl : l = [] := List.eq_nil_iff_forall_not_mem.mpr fun a ha => List.not_mem_nil (h a ha)
    rw [hl]
    exact .nil
  | cons k ks ih =>
    obtain ⟨hk, hks⟩ := List.nodup_cons.mp hnodup
    have hothers : ∀ a ∈ l.filter (fun a => !decide (f a = k)), f a ∈ ks := by
      intro a ha
      obtain ⟨ha, hne⟩ := List.mem_filter.mp ha
      have hne : f a ≠ k := by simpa using hne
      exact (List.mem_cons.mp (h a ha)).resolve_left hne
    have hclasses : (ks.flatMap fun k' => l.filter fun a => f a = k') =
        ks.flatMap fun k' => (l.filter fun a => !decide (f a = k)).filter fun a => f a = k' := by
      refine List.flatMap_congr fun k' hk' => ?_
      rw [List.filter_filter]
      refine List.filter_congr fun a _ => ?_
      have hne : k' ≠ k := fun heq => hk (heq ▸ hk')
      by_cases ha : f a = k'
      · simp [ha, hne]
      · simp [ha]
    rw [List.flatMap_cons, hclasses]
    exact ((ih hks _ hothers).append_left _).trans (List.filter_append_perm _ l)

/-- Whatever order a map task visits its keys in, it writes what `mapf` has emitted. -/
theorem entries_perm {kva : List (KeyValue K V)} {order : List K}
    (horder : order.Perm (keysOf kva)) : (entries kva order).Perm kva := by
  have hentries : entries kva order = order.flatMap fun key => kva.filter fun kv => kv.key = key := by
    refine List.flatMap_congr fun key _ => ?_
    rw [valuesOf, List.map_map]
    refine (List.map_congr_left fun kv hkv => ?_).trans (List.map_id _)
    have hkey : kv.key = key := of_decide_eq_true (List.mem_filter.mp hkv).2
    simp [← hkey]
  rw [hentries]
  refine flatMap_filter_perm KeyValue.key (horder.nodup_iff.mpr (nodup_keysOf kva)) kva ?_
  intro kv hkv
  exact horder.mem_iff.mpr (mem_keysOf.mpr ⟨kv, hkv, rfl⟩)

omit [LinearOrder K] in
theorem flatMap_partition (r : ℕ) :
    ((List.range job.files.length).flatMap fun m => job.partition m r) =
      job.intermediate.filter fun kv => job.reduceId kv.key = r := by
  rw [← flatMap_emitted, List.filter_flatMap]
  rfl

variable (job) in
/-- The lines of the sequential run that belong to a reduce task. -/
def expected (r : ℕ) : List L :=
  ((keysOf job.intermediate).filter fun key => job.reduceId key = r).map
    (job.lineOf job.intermediate)

theorem flatMap_expected (h : job.Lawful) :
    ((List.range job.nReduce).flatMap job.expected).Perm job.mrsequential := by
  refine List.Perm.trans ?_ (mrsequential_perm h).symm
  have hmap : (List.range job.nReduce).flatMap job.expected =
      ((List.range job.nReduce).flatMap fun r =>
        (keysOf job.intermediate).filter fun key => job.reduceId key = r).map
          (job.lineOf job.intermediate) := by
    rw [List.map_flatMap]
    rfl
  rw [hmap]
  refine (flatMap_filter_perm job.reduceId List.nodup_range _ fun key _ => ?_).map _
  exact List.mem_range.mpr (Nat.mod_lt _ h.nReduce)

theorem reduceLines_perm (h : job.Lawful) {r : ℕ} {kvs : List (KeyValue K V)}
    (hkvs : kvs.Perm (job.intermediate.filter fun kv => job.reduceId kv.key = r)) :
    (job.reduceLines kvs).Perm (job.expected r) := by
  have hkeys : (job.reduceLines kvs).Perm ((keysOf kvs).map (job.lineOf kvs)) :=
    (h.sortStrings_perm _).map _
  refine (hkeys.trans (map_lineOf_perm h hkvs)).trans ?_
  refine ((keysOf_filter (fun key => decide (job.reduceId key = r)) _).map _).trans ?_
  refine List.Perm.of_eq (List.map_congr_left fun key hkey => ?_)
  have hr := (List.mem_filter.mp hkey).2
  rw [lineOf, lineOf, valuesOf_filter (p := fun key => decide (job.reduceId key = r)) hr]

/-- The job of `mrapps/wc.go`, for texts whose words are numbers. -/
def wordCount (texts : List (List ℕ)) (nReduce : ℕ) :
    Job (List ℕ) (List ℕ) ℕ ℕ (ℕ × ℕ) (ℕ × ℕ) where
  mapf := fun _ words => words.map fun word => ⟨word, 1⟩
  reducef := fun _ values => values.length
  files := texts
  content := id
  nReduce := nReduce
  ihash := id
  sortByKey := List.insertionSort fun kv kv' => kv.key ≤ kv'.key
  sortStrings := List.insertionSort (· ≤ ·)
  encode := fun kv => (kv.key, kv.value)
  decode := fun j => some ⟨j.1, j.2⟩
  fprintf := Prod.mk

theorem wordCount_lawful (texts : List (List ℕ)) {nReduce : ℕ} (h : 0 < nReduce) :
    (wordCount texts nReduce).Lawful where
  nReduce := h
  reducef := fun _ _ _ hperm => hperm.length_eq
  sortByKey_perm := List.perm_insertionSort _
  sortByKey_sorted := by
    have htotal : Std.Total fun kv kv' : KeyValue ℕ ℕ => kv.key ≤ kv'.key :=
      ⟨fun kv kv' => Nat.le_total kv.key kv'.key⟩
    have htrans : IsTrans (KeyValue ℕ ℕ) fun kv kv' => kv.key ≤ kv'.key :=
      ⟨fun _ _ _ => Nat.le_trans⟩
    exact List.pairwise_insertionSort _
  sortStrings_perm := List.perm_insertionSort _
  decode_encode := fun _ _ _ => rfl

end Job
end DistributedLabs.MapReduce
