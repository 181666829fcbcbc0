import DistributedLabs.KvraftReplica
import DistributedLabs.LocalOperations
import DistributedLabs.ShardGroup

/-!
# The checker's model of a key/value store

`models1` gives the linearizability checker a register for each key: a value and a version,
and no notion of a key that is absent. Both stores answer a sequence of requests as these
registers do. A key that was never written reads as the register's first state, with `ErrNoKey`;
the versions wrap around in both.
-/

namespace DistributedLabs.Models
open Kv LocalOperations
open Rsm (Any)
open ShardKv (GoString Json KVServer key2Shard)

variable {K V B : Type}

/-- `op` is 0 for a get and 1 for a put. -/
structure KvInput (K V : Type) where
  op : UInt8
  key : K
  value : V
  version : UInt64
  deriving DecidableEq

structure KvOutput (V : Type) where
  value : V
  version : UInt64
  err : Err
  deriving DecidableEq

structure KvState (V : Type) where
  value : V
  version : UInt64
  deriving DecidableEq

/-- Operations in the order of a sequential history, with their outputs. -/
abbrev History (K V : Type) := List (KvInput K V × KvOutput V)

namespace KvModel

def init [Inhabited V] : KvState V := ⟨default, 0⟩

/-- Whether the model allows the output, and its next state; other operations have none. -/
def step [DecidableEq V] (st : KvState V) (inp : KvInput K V) (out : KvOutput V) :
    Bool × Option (KvState V) :=
  if inp.op = 0 then (out.value = st.value, some st)
  else if inp.op = 1 then
    if st.version = inp.version then
      (out.err = .ok ∨ out.err = .errMaybe, some ⟨inp.value, st.version + 1⟩)
    else (out.err = .errVersion ∨ out.err = .errMaybe, some st)
  else (false, none)

/-- The part of a history that `Partition` makes for a key. -/
def partition [DecidableEq K] (key : K) (history : History K V) : History K V :=
  history.filter fun op => op.1.key = key

theorem partition_append_singleton [DecidableEq K] (key : K) (history : History K V)
    (op : KvInput K V × KvOutput V) : partition key (history ++ [op]) =
      partition key history ++ if op.1.key = key then [op] else [] := by
  rw [partition, List.filter_append, partition]
  by_cases hkey : op.1.key = key <;> simp [hkey]

/-- The state after a history, if the model allows each of its outputs. -/
def check [DecidableEq V] (st : KvState V) (history : History K V) : Option (KvState V) :=
  history.foldlM (fun st op => if (step st op.1 op.2).1 then (step st op.1 op.2).2 else none) st

theorem check_append_singleton [DecidableEq V] {st st' : KvState V} {history : History K V}
    (h : check st history = some st') (op : KvInput K V × KvOutput V) :
    check st (history ++ [op]) =
      if (step st' op.1 op.2).1 then (step st' op.1 op.2).2 else none := by
  unfold check at h ⊢
  simp [List.foldlM_append, h]

/-- A put of the key was answered with `OK`. -/
def written [DecidableEq K] (key : K) (history : History K V) : Bool :=
  history.any fun op => op.1.op = 1 ∧ op.1.key = key ∧ op.2.err = .ok

end KvModel

open KvModel

def keyOf : Kvraft.Command K V → K
  | .get args => args.key
  | .put args => args.key

section Kvraft
variable [Inhabited V]

/-- What the test logs of a request and of its reply. -/
def inputOf : Kvraft.Command K V → KvInput K V
  | .get args => ⟨0, args.key, default, 0⟩
  | .put args => ⟨1, args.key, args.value, args.version⟩

@[inherit_doc inputOf] def outputOf : Kvraft.Reply V → KvOutput V
  | .get reply => ⟨reply.value, reply.version, reply.err⟩
  | .put reply => ⟨default, 0, reply.err⟩

@[simp] theorem inputOf_key (c : Kvraft.Command K V) : (inputOf c).key = keyOf c := by
  cases c <;> rfl

/-- The reply of a register; a get also tells whether there was a put before it. -/
def respond (st : KvState V) (present : Bool) : Kvraft.Command K V → Kvraft.Reply V
  | .get _ => .get ⟨st.value, st.version, if present then .ok else .errNoKey⟩
  | .put args => .put ⟨if args.version = st.version then .ok else .errVersion⟩

/-- What a store has of a key, as a state of the model. -/
def register (kv : KeyValue K V) (key : K) : KvState V :=
  match kv key with
  | none => init
  | some entry => ⟨entry.value, entry.version⟩

theorem register_version (kv : KeyValue K V) (key : K) :
    (register kv key).version = versionOf kv key := by
  unfold register versionOf
  cases kv key <;> rfl

variable [DecidableEq K]

/-- The store after a list of requests. -/
def storeAfter (reqs : List (Any (Kvraft.Command K V))) : KeyValue K V :=
  run (fun req kv => Kvraft.doOp kv req) (emptyStore K V) reqs

@[simp] theorem storeAfter_append_singleton (reqs : List (Any (Kvraft.Command K V)))
    (req : Any (Kvraft.Command K V)) :
    storeAfter (reqs ++ [req]) = (Kvraft.doOp (storeAfter reqs) req).1 :=
  run_append_singleton _ _ reqs req

/-- The requests as they are answered one after the other. -/
def historyFrom (kv : KeyValue K V) : List (Any (Kvraft.Command K V)) → History K V
  | [] => []
  | req :: rest =>
    (inputOf req.command, outputOf (Kvraft.doOp kv req).2) :: historyFrom (Kvraft.doOp kv req).1 rest

def history (reqs : List (Any (Kvraft.Command K V))) : History K V :=
  historyFrom (emptyStore K V) reqs

theorem historyFrom_append_singleton (kv : KeyValue K V) (reqs : List (Any (Kvraft.Command K V)))
    (req : Any (Kvraft.Command K V)) :
    historyFrom kv (reqs ++ [req]) = historyFrom kv reqs ++
      [(inputOf req.command,
        outputOf (Kvraft.doOp (run (fun req kv => Kvraft.doOp kv req) kv reqs) req).2)] := by
  induction reqs generalizing kv with
  | nil => rfl
  | cons first reqs ih =>
    rw [List.cons_append, historyFrom, ih]
    rfl

@[simp] theorem history_append_singleton (reqs : List (Any (Kvraft.Command K V)))
    (req : Any (Kvraft.Command K V)) :
    history (reqs ++ [req]) = history reqs ++
      [(inputOf req.command, outputOf (Kvraft.doOp (storeAfter reqs) req).2)] :=
  historyFrom_append_singleton _ reqs req

theorem doOp_eq_value (kv : KeyValue K V) (req : Any (Kvraft.Command K V)) :
    Kvraft.doOp kv req = Kvraft.doOp kv (.value req.command) := by
  rcases req with c | c <;> cases c <;> rfl

theorem doOp_reply (kv : KeyValue K V) (req : Any (Kvraft.Command K V)) :
    (Kvraft.doOp kv req).2 =
      respond (register kv (keyOf req.command)) (kv (keyOf req.command)).isSome req.command := by
  rw [doOp_eq_value]
  cases req.command with
  | get args =>
    cases hx : kv args.key <;> simp [Kvraft.doOp, doGet, respond, register, keyOf, hx, init]
  | put args =>
    simp only [Kvraft.doOp, doPut_eq, respond, register_version, keyOf]
    split_ifs <;> rfl

theorem step_doOp [DecidableEq V] (kv : KeyValue K V) (req : Any (Kvraft.Command K V)) :
    step (register kv (keyOf req.command)) (inputOf req.command)
        (outputOf (Kvraft.doOp kv req).2) =
      (true, some (register (Kvraft.doOp kv req).1 (keyOf req.command))) := by
  rw [doOp_reply, doOp_eq_value]
  cases req.command with
  | get args => simp [step, inputOf, outputOf, respond, Kvraft.doOp]
  | put args =>
    simp only [step, inputOf, outputOf, respond, Kvraft.doOp, doPut_eq, register_version, keyOf]
    by_cases hv : args.version = versionOf kv args.key
    · simp [← hv, register]
    · simp [hv, Ne.symm hv]

theorem localAt_doOp (req : Any (Kvraft.Command K V)) :
    LocalAt (fun (kv : KeyValue K V) key => kv key) (keyOf req.command)
      fun kv => Kvraft.doOp kv req where
  others kv key hne := by
    rw [doOp_eq_value]
    revert hne
    cases req.command with
    | get args => exact fun _ => rfl
    | put args => exact fun hne => doPut_of_ne kv args hne
  reply kv kv' h := by simp only [doOp_reply, register, h]
  own kv kv' h := by
    simp only [doOp_eq_value _ req]
    revert h
    cases req.command with
    | get args => exact id
    | put args => exact fun h => (doPut_congr h).2

/-- A key is present after a request if it was before or if the request is a put of it that is
answered with `OK`. -/
theorem isSome_doOp (kv : KeyValue K V) (req : Any (Kvraft.Command K V)) (key : K) :
    ((Kvraft.doOp kv req).1 key).isSome =
      ((kv key).isSome || written key [(inputOf req.command, outputOf (Kvraft.doOp kv req).2)]) := by
  rw [doOp_eq_value]
  cases req.command with
  | get args => simp [Kvraft.doOp, written, inputOf]
  | put args =>
    simp only [Kvraft.doOp, written, inputOf, outputOf, doPut_eq]
    by_cases hv : args.version = versionOf kv args.key
    · rcases eq_or_ne args.key key with rfl | hne
      · simp [← hv]
      · simp [← hv, hne, Function.update_of_ne hne.symm]
    · simp [hv]

theorem written_history (reqs : List (Any (Kvraft.Command K V))) (key : K) :
    written key (history reqs) = (storeAfter reqs key).isSome := by
  induction reqs using List.reverseRecOn with
  | nil => rfl
  | append_singleton reqs req ih =>
    rw [storeAfter_append_singleton, isSome_doOp, ← ih]
    simp [written]

theorem check_history [DecidableEq V] (reqs : List (Any (Kvraft.Command K V))) (key : K) :
    check init (partition key (history reqs)) = some (register (storeAfter reqs) key) := by
  induction reqs using List.reverseRecOn with
  | nil => rfl
  | append_singleton reqs req ih =>
    rw [history_append_singleton, storeAfter_append_singleton, partition_append_singleton, inputOf_key]
    by_cases hkey : keyOf req.command = key
    · subst hkey
      rw [if_pos rfl, check_append_singleton ih, step_doOp]
      rfl
    · have hsame : (Kvraft.doOp (storeAfter reqs) req).1 key = storeAfter reqs key :=
        (localAt_doOp req).others _ key (Ne.symm hkey)
      rw [if_neg hkey, List.append_nil, ih, register, register, hsame]

theorem reply_storeAfter_filter (reqs : List (Any (Kvraft.Command K V)))
    (req : Any (Kvraft.Command K V)) :
    (Kvraft.doOp (storeAfter (reqs.filter fun r => keyOf r.command = keyOf req.command)) req).2 =
      (Kvraft.doOp (storeAfter reqs) req).2 := by
  apply (localAt_doOp req).reply
  exact part_run_filter (fun r _ => localAt_doOp r) _ _

end Kvraft

def shardCommand : Kvraft.Command GoString GoString → ShardKv.Command B
  | .get args => .get args
  | .put args => .put args

/-- A client's request as it comes to a shard group. -/
def shardRequest : Any (Kvraft.Command GoString GoString) → Any (ShardKv.Command B)
  | .pointer c => .pointer (shardCommand c)
  | .value c => .value (shardCommand c)

def shardReply : Kvraft.Reply GoString → ShardKv.Reply B
  | .get reply => .get reply
  | .put reply => .put reply

theorem doOp_of_accepts (json : Json B) {kv : KVServer} {req : Any (Kvraft.Command GoString GoString)}
    (h : kv.Accepts (key2Shard (keyOf req.command))) :
    kv.doOp json (shardRequest req) =
      ({ kv with keyValue := (Kvraft.doOp kv.keyValue req).1 },
        shardReply (Kvraft.doOp kv.keyValue req).2) := by
  rcases req with c | c <;> cases c with
  | get args =>
    simp only [shardRequest, shardCommand, KVServer.doOp, KVServer.get_of_accepts h]
    rfl
  | put args =>
    simp only [shardRequest, shardCommand, KVServer.doOp, KVServer.put_of_accepts args h]
    rfl

/-- Each request to `kvraft1` is answered as the register of its key answers it, the state of the
register being what the model's `Step` makes of the replies so far, and other keys have no part
in it. A shard group that takes operations on the shard of the key answers as `kvraft1` does. -/
theorem stores_implement_model [Inhabited V] [DecidableEq K] [DecidableEq V] (json : Json B) :
    (∀ (reqs : List (Any (Kvraft.Command K V))) (req : Any (Kvraft.Command K V)),
      ∃ st st' : KvState V,
        check init (partition (keyOf req.command) (history reqs)) = some st ∧
        (Kvraft.doOp (storeAfter reqs) req).2 =
          respond st (written (keyOf req.command) (history reqs)) req.command ∧
        step st (inputOf req.command) (outputOf (Kvraft.doOp (storeAfter reqs) req).2) =
          (true, some st') ∧
        check init (partition (keyOf req.command) (history (reqs ++ [req]))) = some st' ∧
        (Kvraft.doOp (storeAfter (reqs.filter fun r => keyOf r.command = keyOf req.command)) req).2 =
          (Kvraft.doOp (storeAfter reqs) req).2) ∧
    ∀ (kv : KVServer) (req : Any (Kvraft.Command GoString GoString)),
      kv.Accepts (key2Shard (keyOf req.command)) →
        kv.doOp json (shardRequest req) =
          ({ kv with keyValue := (Kvraft.doOp kv.keyValue req).1 },
            shardReply (Kvraft.doOp kv.keyValue req).2) := by
  refine ⟨fun reqs req => ?_, fun kv req h => doOp_of_accepts json h⟩
  refine ⟨_, _, check_history reqs _, ?_, step_doOp _ req, ?_, reply_storeAfter_filter reqs req⟩
  · rw [written_history]
    exact doOp_reply _ req
  · rw [check_history, storeAfter_append_singleton]

/-- A key is written, another one is, and a put with a wrong version fails; and a shard group takes
its first put. -/
theorem stores_implement_model_two_keys :
    (Kvraft.doOp (storeAfter [.pointer (.put ⟨7, 1, 0⟩), .value (.put ⟨8, 5, 0⟩),
        .value (.put ⟨7, 2, 9⟩)]) (.value (.get ⟨7⟩))).2 = Kvraft.Reply.get ⟨1, 1, .ok⟩ ∧
      KVServer.start.Accepts (key2Shard [109]) ∧
      KVServer.start.doOp ShardKv.plainJson (shardRequest (.pointer (.put ⟨[109], [120], 0⟩))) =
        ({ KVServer.start with
            keyValue := Function.update (emptyStore _ _) [109] (some ⟨[120], 1⟩) },
          .put ⟨.ok⟩) := by
  obtain ⟨hkv, hshard⟩ := stores_implement_model (K := ℕ) (V := ℕ) ShardKv.plainJson
  obtain ⟨st, -, hst, hreply, -⟩ := hkv [.pointer (.put ⟨7, 1, 0⟩), .value (.put ⟨8, 5, 0⟩),
    .value (.put ⟨7, 2, 9⟩)] (.value (.get ⟨7⟩))
  have hone : st = ⟨1, 1⟩ := Option.some.inj (hst.symm.trans (by decide))
  refine ⟨?_, ⟨rfl, rfl⟩, hshard .start (.pointer (.put ⟨[109], [120], 0⟩)) ⟨rfl, rfl⟩⟩
  rw [hreply, hone]
  decide

end DistributedLabs.Models
