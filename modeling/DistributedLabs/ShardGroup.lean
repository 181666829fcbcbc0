import DistributedLabs.Rsm
import DistributedLabs.VersionedStore
import Mathlib.Data.Fintype.Basic
import Mathlib.Data.Int.Notation

/-!
# A shard group of `shardkv1`

The state machine that a shard group replicates. Besides the versioned store it
keeps for every shard whether it is frozen, whether it has moved away, and the
largest configuration number it has seen. A freeze hands out the entries of a
shard, an install takes them in, a delete gives the shard up.
-/

namespace DistributedLabs.ShardKv
open Kv
open Rsm (Any)

/-- A Go string: any sequence of bytes. -/
abbrev GoString := List UInt8

/-- A group id is any `int`; 0 stands for no group. -/
abbrev Tgid := ℤ

/-- A shard id below `NShards`. -/
abbrev Tshid := Fin 12

/-- The hash of `fnv.New32a`. -/
def fnv32a (data : List UInt8) : UInt32 :=
  data.foldl (fun h b => (h ^^^ b.toUInt32) * 16777619) 2166136261

def key2Shard (key : GoString) : Tshid := Fin.ofNat 12 (fnv32a key).toNat

abbrev Entries := KeyValue GoString GoString

/-- The part of `encoding/json` that carries a shard's entries. -/
structure Json (B : Type) where
  marshal : Entries → B
  unmarshal : B → Option Entries
  /-- the text `{}` -/
  emptyObject : B

/-- Finitely many entries, and all their keys and values are of a kind. -/
structure SpelledIn (text : GoString → Prop) (entries : Entries) : Prop where
  finite : FiniteKeys entries
  strings : ∀ key e, entries key = some e → text key ∧ text e.value

theorem SpelledIn.of_subset {text : GoString → Prop} {entries entries' : Entries}
    (h : SpelledIn text entries) (hsub : ∀ key e, entries' key = some e → entries key = some e) :
    SpelledIn text entries' where
  finite := h.finite.mono fun key hkey => by
    obtain ⟨e, he⟩ := Option.ne_none_iff_exists'.mp hkey
    rw [hsub key e he]
    exact Option.some_ne_none e
  strings key e he := h.strings key e (hsub key e he)

theorem spelledIn_applyPuts {text : GoString → Prop} {puts : List (PutArgs GoString GoString)}
    (h : ∀ a ∈ puts, text a.key ∧ text a.value) : SpelledIn text (applyPuts puts) := by
  induction puts using List.reverseRecOn with
  | nil => exact ⟨finiteKeys_emptyStore, nofun⟩
  | append_singleton puts a ih =>
    obtain ⟨hfinite, hstrings⟩ := ih fun b hb => h b (List.mem_append_left _ hb)
    obtain ⟨hkey, hvalue⟩ := h a (List.mem_append_right _ (List.mem_singleton_self a))
    rw [applyPuts_append]
    refine ⟨hfinite.doPut a, fun key e he => ?_⟩
    by_cases hok : (doPut (applyPuts puts) a).2.err = .ok
    · rw [(doPut_of_ok hok).2] at he
      rcases eq_or_ne key a.key with rfl | hne
      · rw [Function.update_self] at he
        cases he
        exact ⟨hkey, hvalue⟩
      · rw [Function.update_of_ne hne] at he
        exact hstrings key e he
    · rw [(doPut_of_not_ok hok).2] at he
      exact hstrings key e he

/-- Entries with keys and values of a kind can be read back when they were marshalled. -/
structure Json.RoundTrips {B : Type} (json : Json B) (text : GoString → Prop) : Prop where
  marshal : ∀ entries, SpelledIn text entries → json.unmarshal (json.marshal entries) = some entries
  emptyObject : json.unmarshal json.emptyObject = some (emptyStore GoString GoString)

/-- A codec that leaves the entries as they are. -/
def plainJson : Json Entries := ⟨id, some, emptyStore GoString GoString⟩

theorem plainJson_roundTrips (text : GoString → Prop) : plainJson.RoundTrips text :=
  ⟨fun _ _ => rfl, rfl⟩

structure FreezeShardArgs where
  shard : Tshid
  num : ℕ
  deriving DecidableEq, Repr

structure FreezeShardReply (B : Type) where
  state : Option B
  num : ℕ
  err : Err

structure InstallShardArgs (B : Type) where
  shard : Tshid
  state : Option B
  num : ℕ

structure InstallShardReply where
  err : Err
  deriving DecidableEq, Repr

structure DeleteShardArgs where
  shard : Tshid
  num : ℕ
  deriving DecidableEq, Repr

structure DeleteShardReply where
  err : Err
  deriving DecidableEq, Repr

/-- A shard that is missing in one of the two maps to `bool` is not marked in it. -/
structure KVServer where
  keyValue : Entries
  frozenShards : Tshid → Bool
  maxShardNum : Tshid → Option ℕ
  migratedShards : Tshid → Bool

namespace KVServer
variable {B : Type} (json : Json B) (kv : KVServer)

/-- The maps made by `StartServerShardGrp`. -/
def start : KVServer := ⟨emptyStore _ _, fun _ => false, fun _ => none, fun _ => false⟩

/-- The entries of a shard. -/
def collect (shard : Tshid) : Entries := fun key =>
  if key2Shard key = shard then kv.keyValue key else none

def get (args : GetArgs GoString) : GetReply GoString :=
  if kv.migratedShards (key2Shard args.key) then ⟨default, 0, .errWrongGroup⟩
  else if kv.frozenShards (key2Shard args.key) then ⟨default, 0, .errWrongGroup⟩
  else doGet kv.keyValue args

def put (args : PutArgs GoString GoString) : KVServer × PutReply :=
  if kv.migratedShards (key2Shard args.key) then (kv, ⟨.errWrongGroup⟩)
  else if kv.frozenShards (key2Shard args.key) then (kv, ⟨.errWrongGroup⟩)
  else ({ kv with keyValue := (doPut kv.keyValue args).1 }, (doPut kv.keyValue args).2)

/-- The part of `doFreezeShard` behind the check of the number. -/
def freeze (args : FreezeShardArgs) : KVServer × FreezeShardReply B :=
  ({ kv with
      frozenShards := Function.update kv.frozenShards args.shard true
      maxShardNum := Function.update kv.maxShardNum args.shard (some args.num) },
    ⟨some (json.marshal (kv.collect args.shard)), args.num, .ok⟩)

def doFreezeShard (args : FreezeShardArgs) : KVServer × FreezeShardReply B :=
  match kv.maxShardNum args.shard with
  | none => kv.freeze json args
  | some maxNum =>
    if args.num < maxNum then (kv, ⟨none, 0, .errMaybe⟩)
    else if args.num = maxNum then
      if kv.migratedShards args.shard then (kv, ⟨some json.emptyObject, args.num, .ok⟩)
      else (kv, ⟨some (json.marshal (kv.collect args.shard)), args.num, .ok⟩)
    else kv.freeze json args

/-- The part of `doInstallShard` behind the check of the number. -/
def install (args : InstallShardArgs B) : KVServer × InstallShardReply :=
  let kv : KVServer :=
    { kv with
      maxShardNum := Function.update kv.maxShardNum args.shard (some args.num)
      migratedShards := Function.update kv.migratedShards args.shard false }
  match args.state.bind json.unmarshal with
  | none => (kv, ⟨.errMaybe⟩)
  | some shardData =>
    ({ kv with
        keyValue := fun key => (shardData key).or (kv.keyValue key)
        frozenShards := Function.update kv.frozenShards args.shard false }, ⟨.ok⟩)

def doInstallShard (args : InstallShardArgs B) : KVServer × InstallShardReply :=
  match kv.maxShardNum args.shard with
  | none => kv.install json args
  | some maxNum =>
    if args.num < maxNum then (kv, ⟨.errMaybe⟩)
    else if args.num = maxNum then (kv, ⟨.ok⟩)
    else kv.install json args

/-- The part of `doDeleteShard` behind the check of the number. -/
def delete (args : DeleteShardArgs) : KVServer × DeleteShardReply :=
  ({ keyValue := fun key => if key2Shard key = args.shard then none else kv.keyValue key
     frozenShards := Function.update kv.frozenShards args.shard false
     maxShardNum := Function.update kv.maxShardNum args.shard (some args.num)
     migratedShards := Function.update kv.migratedShards args.shard true }, ⟨.ok⟩)

/-- A delete that carries the number of the freeze before it only marks the shard. -/
def doDeleteShard (args : DeleteShardArgs) : KVServer × DeleteShardReply :=
  match kv.maxShardNum args.shard with
  | none => kv.delete args
  | some maxNum =>
    if args.num < maxNum then (kv, ⟨.errMaybe⟩)
    else if args.num = maxNum then
      ({ kv with
          migratedShards := Function.update kv.migratedShards args.shard true
          frozenShards := Function.update kv.frozenShards args.shard false }, ⟨.ok⟩)
    else kv.delete args

end KVServer

inductive Command (B : Type)
  | freezeShard (args : FreezeShardArgs)
  | installShard (args : InstallShardArgs B)
  | deleteShard (args : DeleteShardArgs)
  | get (args : GetArgs GoString)
  | put (args : PutArgs GoString GoString)

inductive Reply (B : Type)
  | freezeShard (reply : FreezeShardReply B)
  | installShard (reply : InstallShardReply)
  | deleteShard (reply : DeleteShardReply)
  | get (reply : GetReply GoString)
  | put (reply : PutReply)

def KVServer.doOp {B : Type} (json : Json B) (kv : KVServer) : Any (Command B) → KVServer × Reply B
  | .pointer (.freezeShard args) => (kv.doFreezeShard json args).map id .freezeShard
  | .value (.freezeShard args) => (kv.doFreezeShard json args).map id .freezeShard
  | .pointer (.installShard args) => (kv.doInstallShard json args).map id .installShard
  | .value (.installShard args) => (kv.doInstallShard json args).map id .installShard
  | .pointer (.deleteShard args) => (kv.doDeleteShard args).map id .deleteShard
  | .value (.deleteShard args) => (kv.doDeleteShard args).map id .deleteShard
  | .pointer (.get args) => (kv, .get (kv.get args))
  | .value (.get args) => (kv, .get (kv.get args))
  | .pointer (.put args) => (kv.put args).map id .put
  | .value (.put args) => (kv.put args).map id .put

namespace KVServer
variable {B : Type} (json : Json B) (kv : KVServer)

/-- The group takes operations on the shard. -/
def Accepts (s : Tshid) : Prop := kv.migratedShards s = false ∧ kv.frozenShards s = false

/-- The group sends clients of the shard elsewhere. -/
def TurnsAway (s : Tshid) : Prop := kv.migratedShards s = true ∨ kv.frozenShards s = true

variable {kv}

theorem put_of_accepts (args : PutArgs GoString GoString) (h : kv.Accepts (key2Shard args.key)) :
    kv.put args =
      ({ kv with keyValue := (doPut kv.keyValue args).1 }, (doPut kv.keyValue args).2) := by
  simp [put, h.1, h.2]

theorem put_of_turnsAway (args : PutArgs GoString GoString)
    (h : kv.TurnsAway (key2Shard args.key)) : kv.put args = (kv, ⟨.errWrongGroup⟩) := by
  rcases h with h | h <;> simp [put, h]

theorem get_of_turnsAway {args : GetArgs GoString} (h : kv.TurnsAway (key2Shard args.key)) :
    (kv.get args).err = .errWrongGroup := by
  rcases h with h | h <;> simp [get, h]

theorem get_of_accepts {args : GetArgs GoString} (h : kv.Accepts (key2Shard args.key)) :
    kv.get args = doGet kv.keyValue args := by
  simp [get, h.1, h.2]

theorem accepts_or_turnsAway (kv : KVServer) (s : Tshid) : kv.Accepts s ∨ kv.TurnsAway s := by
  unfold Accepts TurnsAway
  cases kv.migratedShards s <;> cases kv.frozenShards s <;> simp

theorem Accepts.not_turnsAway {s : Tshid} (h : kv.Accepts s) : ¬kv.TurnsAway s := by
  rintro (hm | hf)
  · exact Bool.false_ne_true (h.1.symm.trans hm)
  · exact Bool.false_ne_true (h.2.symm.trans hf)

/-- A shard number that is new to the group. -/
def Fresh (kv : KVServer) (s : Tshid) (num : ℕ) : Prop := ∀ maxNum ∈ kv.maxShardNum s, maxNum < num

theorem doFreezeShard_of_fresh (args : FreezeShardArgs) (h : kv.Fresh args.shard args.num) :
    kv.doFreezeShard json args = kv.freeze json args := by
  unfold doFreezeShard
  cases hx : kv.maxShardNum args.shard with
  | none => rfl
  | some maxNum =>
    have hlt := h maxNum hx
    simp [hlt.not_gt, hlt.ne']

theorem doFreezeShard_of_eq (args : FreezeShardArgs)
    (h : kv.maxShardNum args.shard = some args.num) :
    kv.doFreezeShard json args = (kv, ⟨some (if kv.migratedShards args.shard then json.emptyObject
      else json.marshal (kv.collect args.shard)), args.num, .ok⟩) := by
  unfold doFreezeShard
  rw [h]
  cases kv.migratedShards args.shard <;> simp

theorem doInstallShard_of_fresh (args : InstallShardArgs B) (h : kv.Fresh args.shard args.num) :
    kv.doInstallShard json args = kv.install json args := by
  unfold doInstallShard
  cases hx : kv.maxShardNum args.shard with
  | none => rfl
  | some maxNum =>
    have hlt := h maxNum hx
    simp [hlt.not_gt, hlt.ne']

theorem doInstallShard_of_eq (args : InstallShardArgs B)
    (h : kv.maxShardNum args.shard = some args.num) :
    kv.doInstallShard json args = (kv, ⟨.ok⟩) := by
  simp [doInstallShard, h]

theorem doDeleteShard_of_eq (args : DeleteShardArgs)
    (h : kv.maxShardNum args.shard = some args.num) :
    (kv.doDeleteShard args).1 =
      { kv with
        migratedShards := Function.update kv.migratedShards args.shard true
        frozenShards := Function.update kv.frozenShards args.shard false } := by
  simp [doDeleteShard, h]

end KVServer

end DistributedLabs.ShardKv
