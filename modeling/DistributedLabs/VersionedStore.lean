import Mathlib.Data.List.Induction
import Mathlib.Data.Set.Finite.Basic
import Mathlib.Logic.Function.Basic
import Mathlib.Tactic.SplitIfs

/-!
# The versioned key/value store

The messages of the `rpc` package and the two operations that `kvraft1` and the
shard groups share: `Get` reads an entry, `Put` replaces it if the version it
names is the current one. Versions are `uint64` and wrap around.
-/

namespace DistributedLabs.Kv

inductive Err
  | ok
  | errNoKey
  | errVersion
  | errMaybe
  | errWrongLeader
  | errWrongGroup
  deriving DecidableEq, Repr

abbrev Tversion := UInt64

structure GetArgs (K : Type) where
  key : K
  deriving DecidableEq, Repr

structure GetReply (V : Type) where
  value : V
  version : Tversion
  err : Err
  deriving DecidableEq, Repr

structure PutArgs (K V : Type) where
  key : K
  value : V
  version : Tversion
  deriving DecidableEq, Repr

structure PutReply where
  err : Err
  deriving DecidableEq, Repr

structure ValueEntry (V : Type) where
  value : V
  version : Tversion
  deriving DecidableEq, Repr

/-- The map `KeyValue` of a server. -/
abbrev KeyValue (K V : Type) := K → Option (ValueEntry V)

def emptyStore (K V : Type) : KeyValue K V := fun _ => none

variable {K V : Type}

/-- A Go map holds finitely many keys. -/
def FiniteKeys (kv : KeyValue K V) : Prop := {key | kv key ≠ none}.Finite

theorem finiteKeys_emptyStore : FiniteKeys (emptyStore K V) := by
  simp [FiniteKeys, emptyStore]

theorem FiniteKeys.mono {kv kv' : KeyValue K V} (h : FiniteKeys kv)
    (hsub : ∀ key, kv' key ≠ none → kv key ≠ none) : FiniteKeys kv' :=
  Set.Finite.subset h hsub

def doGet [Inhabited V] (kv : KeyValue K V) (getreq : GetArgs K) : GetReply V :=
  match kv getreq.key with
  | none => ⟨default, 0, .errNoKey⟩
  | some entry => ⟨entry.value, entry.version, .ok⟩

/-- The version of a key; a key that was never written has version 0. -/
def versionOf (kv : KeyValue K V) (key : K) : Tversion := ((kv key).map ValueEntry.version).getD 0

variable [DecidableEq K]

def doPut (kv : KeyValue K V) (putreq : PutArgs K V) : KeyValue K V × PutReply :=
  match kv putreq.key with
  | none =>
    if putreq.version = 0 then
      (Function.update kv putreq.key (some ⟨putreq.value, 1⟩), ⟨.ok⟩)
    else (kv, ⟨.errVersion⟩)
  | some entry =>
    if putreq.version ≠ entry.version then (kv, ⟨.errVersion⟩)
    else (Function.update kv putreq.key (some ⟨putreq.value, entry.version + 1⟩), ⟨.ok⟩)

/-- A `Put` takes effect exactly when it names the current version. -/
theorem doPut_eq (kv : KeyValue K V) (a : PutArgs K V) :
    doPut kv a = if a.version = versionOf kv a.key then
      (Function.update kv a.key (some ⟨a.value, a.version + 1⟩), ⟨.ok⟩) else (kv, ⟨.errVersion⟩) := by
  unfold doPut versionOf
  cases hx : kv a.key with
  | none =>
    by_cases hv : a.version = 0
    · simp [hv]
    · simp [hv]
  | some entry =>
    by_cases hv : a.version = entry.version
    · simp [hv]
    · simp [hv]

theorem doPut_of_ok {kv : KeyValue K V} {a : PutArgs K V} (h : (doPut kv a).2.err = .ok) :
    a.version = versionOf kv a.key ∧
      (doPut kv a).1 = Function.update kv a.key (some ⟨a.value, a.version + 1⟩) := by
  rw [doPut_eq] at h ⊢
  split_ifs at h ⊢ with hv
  exact ⟨hv, rfl⟩

theorem doPut_of_not_ok {kv : KeyValue K V} {a : PutArgs K V} (h : (doPut kv a).2.err ≠ .ok) :
    (doPut kv a).2.err = .errVersion ∧ (doPut kv a).1 = kv := by
  rw [doPut_eq] at h ⊢
  split_ifs at h ⊢ with hv
  · exact absurd rfl h
  · exact ⟨rfl, rfl⟩

theorem doPut_ne_wrongGroup (kv : KeyValue K V) (a : PutArgs K V) :
    (doPut kv a).2.err ≠ .errWrongGroup := by
  rw [doPut_eq]
  split_ifs <;> nofun

/-- Two stores that agree on a key treat a `Put` of it alike. -/
theorem doPut_congr {kv kv' : KeyValue K V} {a : PutArgs K V} (h : kv a.key = kv' a.key) :
    (doPut kv a).2 = (doPut kv' a).2 ∧ (doPut kv a).1 a.key = (doPut kv' a).1 a.key := by
  have hv : versionOf kv a.key = versionOf kv' a.key := by rw [versionOf, versionOf, h]
  rw [doPut_eq, doPut_eq, hv]
  split_ifs
  · exact ⟨rfl, by simp⟩
  · exact ⟨rfl, h⟩

theorem doPut_of_ne (kv : KeyValue K V) (a : PutArgs K V) {key : K} (h : key ≠ a.key) :
    (doPut kv a).1 key = kv key := by
  rw [doPut_eq]
  split_ifs
  · exact Function.update_of_ne h _ _
  · rfl

theorem FiniteKeys.doPut {kv : KeyValue K V} (h : FiniteKeys kv) (a : PutArgs K V) :
    FiniteKeys (doPut kv a).1 := by
  refine Set.Finite.subset (h.insert a.key) fun key hkey => ?_
  rcases eq_or_ne key a.key with rfl | hne
  · exact Set.mem_insert _ _
  · rw [Set.mem_ofPred_eq, doPut_of_ne kv a hne] at hkey
    exact Set.mem_insert_of_mem _ hkey

/-- The store that a sequence of `Put`s leaves. -/
def applyPuts (puts : List (PutArgs K V)) : KeyValue K V :=
  puts.foldl (fun kv a => (doPut kv a).1) (emptyStore K V)

@[simp] theorem applyPuts_append (puts : List (PutArgs K V)) (a : PutArgs K V) :
    applyPuts (puts ++ [a]) = (doPut (applyPuts puts) a).1 := by
  simp [applyPuts]

/-- What a key holds depends on the `Put`s of keys like it only. -/
theorem applyPuts_filter (p : K → Bool) (puts : List (PutArgs K V)) {key : K} (hkey : p key) :
    applyPuts (puts.filter fun a => p a.key) key = applyPuts puts key := by
  induction puts using List.reverseRecOn generalizing key with
  | nil => rfl
  | append_singleton puts a ih =>
    rw [List.filter_append, applyPuts_append]
    by_cases ha : p a.key
    · have hone : [a].filter (fun a => p a.key) = [a] := by simp [ha]
      rw [hone, applyPuts_append]
      rcases eq_or_ne key a.key with rfl | hne
      · exact (doPut_congr (ih ha)).2
      · rw [doPut_of_ne _ a hne, doPut_of_ne _ a hne, ih hkey]
    · have hne : key ≠ a.key := by
        rintro rfl
        exact ha hkey
      have hnone : [a].filter (fun a => p a.key) = [] := by simp [ha]
      rw [hnone, List.append_nil, doPut_of_ne _ a hne, ih hkey]

end DistributedLabs.Kv
