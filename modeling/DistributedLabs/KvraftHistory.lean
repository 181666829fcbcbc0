import DistributedLabs.KvraftReplica
import Mathlib.Order.Nat

/-!
# Versions in a sequence of operations

The version of a key counts the `Put`s of it that have succeeded, modulo 2^64. While
there are fewer of them than that, a `Put` can succeed at one position of the
sequence only, and whoever reads the key behind it sees a larger version.
-/

namespace DistributedLabs.Kvraft
open Kv Rsm

variable {K V : Type} [DecidableEq K] [Inhabited V]

/-- The map that the operations leave. -/
def storeAfter (ops : List (Command K V)) : KeyValue K V :=
  ops.foldl (fun kv c => (doOp kv (.value c)).1) (emptyStore K V)

/-- What an operation is answered after the others. -/
def replyAfter (ops : List (Command K V)) (c : Command K V) : Reply V :=
  (doOp (storeAfter ops) (.value c)).2

/-- A `Put` of the key that names the current version. -/
def Succeeds (kv : KeyValue K V) (key : K) : Command K V → Prop
  | .get _ => False
  | .put args => args.key = key ∧ args.version = versionOf kv key

instance (kv : KeyValue K V) (key : K) (c : Command K V) : Decidable (Succeeds kv key c) :=
  match c with
  | .get _ => .isFalse id
  | .put _ => inferInstanceAs (Decidable (_ ∧ _))

/-- How many `Put`s of the key succeed. -/
def successes (key : K) (ops : List (Command K V)) : ℕ :=
  (List.range ops.length).countP fun j => ∃ c ∈ ops[j]?, Succeeds (storeAfter (ops.take j)) key c

@[simp] theorem storeAfter_append (ops : List (Command K V)) (c : Command K V) :
    storeAfter (ops ++ [c]) = (doOp (storeAfter ops) (.value c)).1 := by
  simp [storeAfter]

theorem storeAfter_take_succ {ops : List (Command K V)} {j : ℕ} {c : Command K V}
    (h : ops[j]? = some c) :
    storeAfter (ops.take (j + 1)) = (doOp (storeAfter (ops.take j)) (.value c)).1 := by
  rw [List.take_add_one, h, Option.toList_some, storeAfter_append]

theorem successes_append (key : K) (ops : List (Command K V)) (c : Command K V) :
    successes key (ops ++ [c]) =
      successes key ops + if Succeeds (storeAfter ops) key c then 1 else 0 := by
  unfold successes
  rw [List.length_append, List.length_singleton, List.range_succ, List.countP_append,
    List.countP_singleton]
  congr 1
  · apply List.countP_congr
    intro j hj
    have hlt : j < ops.length := List.mem_range.mp hj
    simp only [List.getElem?_append_left hlt, List.take_append_of_le_length hlt.le]
  · simp

theorem successes_take_succ {ops : List (Command K V)} {j : ℕ} {c : Command K V} {key : K}
    (hc : ops[j]? = some c) (h : Succeeds (storeAfter (ops.take j)) key c) :
    successes key (ops.take (j + 1)) = successes key (ops.take j) + 1 := by
  rw [List.take_add_one, hc, Option.toList_some, successes_append, if_pos h]

theorem successes_le_append (key : K) (ops more : List (Command K V)) :
    successes key ops ≤ successes key (ops ++ more) := by
  induction more using List.reverseRecOn with
  | nil => rw [List.append_nil]
  | append_singleton more c ih =>
    rw [← List.append_assoc, successes_append]
    exact ih.trans (Nat.le_add_right _ _)

theorem successes_take_le (key : K) (ops : List (Command K V)) {j p : ℕ} (h : j ≤ p) :
    successes key (ops.take j) ≤ successes key (ops.take p) := by
  obtain ⟨d, rfl⟩ := Nat.exists_eq_add_of_le h
  rw [List.take_add]
  exact successes_le_append key _ _

theorem successes_take_lt {key : K} {ops : List (Command K V)}
    (hfew : successes key ops < UInt64.size) (p : ℕ) :
    successes key (ops.take p) < UInt64.size := by
  have hle := successes_le_append key (ops.take p) (ops.drop p)
  rw [List.take_append_drop] at hle
  exact hle.trans_lt hfew

theorem versionOf_doOp_of_succeeds {kv : KeyValue K V} {key : K} {c : Command K V}
    (h : Succeeds kv key c) : versionOf (doOp kv (.value c)).1 key = versionOf kv key + 1 := by
  cases c with
  | get args => cases h
  | put args =>
    obtain ⟨rfl, hv⟩ := h
    simp only [doOp, doPut_eq, ← hv]
    simp [versionOf]

theorem versionOf_doOp_of_not_succeeds {kv : KeyValue K V} {key : K} {c : Command K V}
    (h : ¬Succeeds kv key c) : versionOf (doOp kv (.value c)).1 key = versionOf kv key := by
  cases c with
  | get args => rfl
  | put args =>
    simp only [doOp, doPut_eq]
    split_ifs with hv
    · have hkey : key ≠ args.key := by
        rintro rfl
        exact h ⟨rfl, hv⟩
      simp [versionOf, Function.update_of_ne hkey]
    · rfl

theorem versionOf_storeAfter (key : K) (ops : List (Command K V)) :
    versionOf (storeAfter ops) key = UInt64.ofNat (successes key ops) := by
  induction ops using List.reverseRecOn with
  | nil => rfl
  | append_singleton ops c ih =>
    rw [storeAfter_append, successes_append]
    by_cases hc : Succeeds (storeAfter ops) key c
    · rw [versionOf_doOp_of_succeeds hc, if_pos hc, ih, UInt64.ofNat_add]
      rfl
    · rw [versionOf_doOp_of_not_succeeds hc, if_neg hc, ih, Nat.add_zero]

theorem toNat_versionOf {key : K} {ops : List (Command K V)}
    (hfew : successes key ops < UInt64.size) (p : ℕ) :
    (versionOf (storeAfter (ops.take p)) key).toNat = successes key (ops.take p) := by
  rw [versionOf_storeAfter, UInt64.toNat_ofNat_of_lt' (successes_take_lt hfew p)]

/-- The operation at the position changes the map. -/
def ChangesAt (ops : List (Command K V)) (j : ℕ) : Prop :=
  storeAfter (ops.take (j + 1)) ≠ storeAfter (ops.take j)

theorem doOp_put_of_ok {kv : KeyValue K V} {args : PutArgs K V} :
    (doOp kv (.value (.put args))).2 = .put ⟨.ok⟩ ↔ args.version = versionOf kv args.key := by
  simp only [doOp, doPut_eq]
  split_ifs with hv <;> simp [hv]

/-- What changes the map is a `Put` that names the current version. -/
theorem changesAt_iff {ops : List (Command K V)} {j : ℕ} {args : PutArgs K V}
    (h : ops[j]? = some (.put args)) :
    ChangesAt ops j ↔ replyAfter (ops.take j) (.put args) = .put ⟨.ok⟩ := by
  rw [replyAfter, doOp_put_of_ok, ChangesAt, storeAfter_take_succ h]
  constructor
  · intro hne
    by_contra hv
    apply hne
    simp only [doOp, doPut_eq, if_neg hv]
  · intro hv heq
    have hversion := versionOf_doOp_of_succeeds (c := .put args) ⟨rfl, hv⟩
    rw [heq] at hversion
    exact absurd hversion (by simp)

theorem exists_put_of_replyAfter {ops : List (Command K V)} {c : Command K V} {reply : PutReply}
    (h : replyAfter ops c = .put reply) : ∃ args, c = .put args := by
  cases c with
  | get args => cases h
  | put args => exact ⟨args, rfl⟩

section Few
variable {ops : List (Command K V)} {args : PutArgs K V} {j : ℕ}

/-- The version a successful `Put` names is the number of those before it. -/
theorem toNat_version_of_changesAt (hfew : successes args.key ops < UInt64.size)
    (hj : ops[j]? = some (.put args)) (h : ChangesAt ops j) :
    successes args.key (ops.take j) = args.version.toNat ∧
      successes args.key (ops.take (j + 1)) = args.version.toNat + 1 := by
  have hversion := doOp_put_of_ok.mp ((changesAt_iff hj).mp h)
  have hnat := toNat_versionOf hfew j
  rw [← hversion] at hnat
  refine ⟨hnat.symm, ?_⟩
  rw [successes_take_succ hj ⟨rfl, hversion⟩, hnat]

/-- Behind a successful `Put` the version is larger than the one it named. -/
theorem version_lt_of_changesAt (hfew : successes args.key ops < UInt64.size)
    (hj : ops[j]? = some (.put args)) (h : ChangesAt ops j) {p : ℕ} (hp : j < p) :
    args.version.toNat + 1 ≤ (versionOf (storeAfter (ops.take p)) args.key).toNat := by
  rw [toNat_versionOf hfew, ← (toNat_version_of_changesAt hfew hj h).2]
  exact successes_take_le args.key ops hp

/-- A `Put` succeeds at one position only. -/
theorem changesAt_unique (hfew : successes args.key ops < UInt64.size)
    (hj : ops[j]? = some (.put args)) (h : ChangesAt ops j) {j' : ℕ}
    (hj' : ops[j']? = some (.put args)) (h' : ChangesAt ops j') : j = j' := by
  have hbefore : ∀ {i i' : ℕ}, ops[i]? = some (.put args) → ChangesAt ops i →
      ops[i']? = some (.put args) → ChangesAt ops i' → ¬i < i' := by
    intro i i' hi hchange hi' hchange' hlt
    have hlarger := version_lt_of_changesAt hfew hi hchange hlt
    have hsame := (toNat_version_of_changesAt hfew hi' hchange').1
    rw [toNat_versionOf hfew, hsame] at hlarger
    omega
  have hle := hbefore hj h hj' h'
  have hge := hbefore hj' h' hj h
  omega

end Few

/-- A `Get` that finds a version other than 0 finds the key. -/
theorem replyAfter_get {ops : List (Command K V)} {key : K} {reply : GetReply V}
    (h : replyAfter ops (.get ⟨key⟩) = .get reply) :
    reply.version = versionOf (storeAfter ops) key ∧ (reply.version ≠ 0 → reply.err = .ok) := by
  simp only [replyAfter, doOp, Reply.get.injEq] at h
  subst h
  unfold doGet versionOf
  cases storeAfter ops key with
  | none => simp
  | some entry => simp

end DistributedLabs.Kvraft
