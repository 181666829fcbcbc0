import DistributedLabs.LocalOperations
import DistributedLabs.ShardGroupNumbers

/-!
# Operations on different shards

The shards of a group share one map of entries. A freeze scans it, an install overwrites
entries of it, a delete filters it, each for the keys of one shard. So every request reads
and writes what belongs to its shard and nothing else, as long as an install brings no key of
another shard with it.
-/

namespace DistributedLabs.ShardKv
open Kv LocalOperations
open Rsm (Any)

variable {B : Type} {json : Json B} {kv kv' : KVServer} {s : Tshid}

/-- The shard that a request is about. -/
def Command.shard : Command B → Tshid
  | .freezeShard args => args.shard
  | .installShard args => args.shard
  | .deleteShard args => args.shard
  | .get args => key2Shard args.key
  | .put args => key2Shard args.key

/-- An install brings keys of its own shard only. -/
def Command.Contained (json : Json B) : Command B → Prop
  | .installShard args => ∀ data ∈ args.state.bind json.unmarshal, ∀ key, data key ≠ none →
      key2Shard key = args.shard
  | _ => True

namespace KVServer

/-- What the group has of a shard: its entries, its number and its two marks. -/
def part (kv : KVServer) (s : Tshid) : Entries × Option ℕ × Bool × Bool := (kv.collect s, kv.standing s)

theorem part_eq_iff : kv.part s = kv'.part s ↔
    (∀ key, key2Shard key = s → kv.keyValue key = kv'.keyValue key) ∧
      kv.maxShardNum s = kv'.maxShardNum s ∧ kv.migratedShards s = kv'.migratedShards s ∧
        kv.frozenShards s = kv'.frozenShards s := by
  simp only [part, standing, Prod.mk.injEq]
  refine and_congr_left fun _ => ⟨fun h key hkey => ?_, fun h => ?_⟩
  · simpa [collect, hkey] using congrFun h key
  · funext key
    by_cases hkey : key2Shard key = s
    · simp [collect, hkey, h key hkey]
    · simp [collect, hkey]

theorem part_injective : Function.Injective part := by
  intro kv kv' h
  have hs := fun s => part_eq_iff.mp (congrFun h s)
  cases kv
  cases kv'
  simp only [mk.injEq]
  refine ⟨?_, ?_, ?_, ?_⟩
  · funext key
    exact (hs (key2Shard key)).1 key rfl
  · funext s
    exact (hs s).2.2.2
  · funext s
    exact (hs s).2.1
  · funext s
    exact (hs s).2.2.1

theorem collect_congr (h : kv.part s = kv'.part s) : kv.collect s = kv'.collect s :=
  congrArg Prod.fst h

theorem localAt_get (args : GetArgs GoString) :
    LocalAt part (key2Shard args.key) fun kv => (kv, kv.get args) where
  others _ _ _ := rfl
  reply kv kv' h := by
    obtain ⟨hkeys, -, hmigrated, hfrozen⟩ := part_eq_iff.mp h
    simp only [get, hmigrated, hfrozen, doGet, hkeys args.key rfl]
  own _ _ h := h

theorem localAt_put (args : PutArgs GoString GoString) :
    LocalAt part (key2Shard args.key) fun kv => kv.put args where
  others kv s hne := by
    rcases kv.accepts_or_turnsAway (key2Shard args.key) with ha | ht
    · simp only [put_of_accepts args ha]
      refine part_eq_iff.mpr ⟨fun key hkey => ?_, rfl, rfl, rfl⟩
      apply doPut_of_ne
      rintro rfl
      exact hne hkey.symm
    · rw [put_of_turnsAway args ht]
  reply kv kv' h := by
    obtain ⟨hkeys, -, hmigrated, hfrozen⟩ := part_eq_iff.mp h
    simp only [put, hmigrated, hfrozen, (doPut_congr (hkeys args.key rfl)).1]
    split_ifs <;> rfl
  own kv kv' h := by
    obtain ⟨hkeys, hnumber, hmigrated, hfrozen⟩ := part_eq_iff.mp h
    simp only [put, hmigrated, hfrozen]
    split_ifs
    · exact h
    · exact h
    · refine part_eq_iff.mpr ⟨fun key hkey => ?_, hnumber, hmigrated, hfrozen⟩
      rcases eq_or_ne key args.key with rfl | hne
      · exact (doPut_congr (hkeys _ rfl)).2
      · simp only [doPut_of_ne _ args hne]
        exact hkeys key hkey

theorem localAt_freeze (args : FreezeShardArgs) :
    LocalAt part args.shard fun kv => kv.freeze json args where
  others kv s hne := by
    refine part_eq_iff.mpr ⟨fun _ _ => rfl, ?_, rfl, ?_⟩
    · simp [freeze, hne]
    · simp [freeze, hne]
  reply kv kv' h := by simp [freeze, collect_congr h]
  own kv kv' h := by
    obtain ⟨hkeys, -, hmigrated, -⟩ := part_eq_iff.mp h
    refine part_eq_iff.mpr ⟨hkeys, ?_, hmigrated, ?_⟩
    · simp [freeze]
    · simp [freeze]

theorem localAt_install (args : InstallShardArgs B) (h : (Command.installShard args).Contained json) :
    LocalAt part args.shard fun kv => kv.install json args where
  others kv s hne := by
    unfold install
    cases hdata : args.state.bind json.unmarshal with
    | none => exact part_eq_iff.mpr ⟨fun _ _ => rfl, by simp [hne], by simp [hne], rfl⟩
    | some data =>
      refine part_eq_iff.mpr ⟨fun key hkey => ?_, by simp [hne], by simp [hne], by simp [hne]⟩
      have hnone : data key = none := by
        by_contra hsome
        exact hne (hkey.symm.trans (h data hdata key hsome))
      simp [hnone]
  reply kv kv' _ := by
    unfold install
    cases args.state.bind json.unmarshal <;> rfl
  own kv kv' hpart := by
    obtain ⟨hkeys, -, -, hfrozen⟩ := part_eq_iff.mp hpart
    unfold install
    cases args.state.bind json.unmarshal with
    | none => exact part_eq_iff.mpr ⟨hkeys, by simp, by simp, hfrozen⟩
    | some data =>
      refine part_eq_iff.mpr ⟨fun key hkey => ?_, by simp, by simp, by simp⟩
      simp only [hkeys key hkey]

theorem localAt_delete (args : DeleteShardArgs) :
    LocalAt part args.shard fun kv => kv.delete args where
  others kv s hne := by
    refine part_eq_iff.mpr ⟨fun key hkey => ?_, ?_, ?_, ?_⟩
    · simp [delete, hkey, hne]
    · simp [delete, hne]
    · simp [delete, hne]
    · simp [delete, hne]
  reply _ _ _ := rfl
  own kv kv' _ := by
    refine part_eq_iff.mpr ⟨fun key hkey => ?_, ?_, ?_, ?_⟩
    · simp [delete, hkey]
    · simp [delete]
    · simp [delete]
    · simp [delete]

theorem localAt_giveUp (s : Tshid) : LocalAt part s fun kv => (kv.giveUp s, DeleteShardReply.mk .ok) where
  others kv t hne := by
    refine part_eq_iff.mpr ⟨fun _ _ => rfl, rfl, ?_, ?_⟩
    · simp [giveUp, hne]
    · simp [giveUp, hne]
  reply _ _ _ := rfl
  own kv kv' h := by
    obtain ⟨hkeys, hnumber, -, -⟩ := part_eq_iff.mp h
    refine part_eq_iff.mpr ⟨hkeys, hnumber, ?_, ?_⟩
    · simp [giveUp]
    · simp [giveUp]

/-- An operation that asks for the number of its shard first is local if each of its branches is. -/
theorem localAt_numbered {ρ : Type} {n : ℕ} {op late again act : KVServer → KVServer × ρ}
    (hop : ∀ kv, op kv = match kv.maxShardNum s with
      | none => act kv
      | some maxNum => if n < maxNum then late kv else if n = maxNum then again kv else act kv)
    (hlate : LocalAt part s late) (hagain : LocalAt part s again) (hact : LocalAt part s act) :
    LocalAt part s op := by
  apply LocalAt.of_choice
  intro kv
  have hnumber : ∀ kv' : KVServer, kv.part s = kv'.part s →
      kv'.maxShardNum s = kv.maxShardNum s := fun kv' h => (part_eq_iff.mp h).2.1.symm
  rcases kv.number_cases s n with ⟨maxNum, hmax, hlt⟩ | heq | hfresh
  · refine ⟨late, hlate, fun kv' h => ?_⟩
    simp [hop, hnumber kv' h, hmax, hlt]
  · refine ⟨again, hagain, fun kv' h => ?_⟩
    simp [hop, hnumber kv' h, heq]
  · refine ⟨act, hact, fun kv' h => ?_⟩
    rw [hop, hnumber kv' h]
    cases hx : kv.maxShardNum s with
    | none => rfl
    | some maxNum =>
      have hlt := hfresh maxNum hx
      simp [hlt.not_gt, hlt.ne']

/-- A repeated freeze reads the mark and the entries of its shard. -/
theorem localAt_freezeAgain (args : FreezeShardArgs) : LocalAt part args.shard fun kv =>
    if kv.migratedShards args.shard then
      (kv, (⟨some json.emptyObject, args.num, .ok⟩ : FreezeShardReply B))
    else (kv, ⟨some (json.marshal (kv.collect args.shard)), args.num, .ok⟩) where
  others kv s _ := by split_ifs <;> rfl
  reply kv kv' h := by
    simp only [(part_eq_iff.mp h).2.2.1, collect_congr h]
    split_ifs <;> rfl
  own kv kv' h := by split_ifs <;> exact h

theorem localAt_doFreezeShard (args : FreezeShardArgs) :
    LocalAt part args.shard fun kv => kv.doFreezeShard json args :=
  localAt_numbered (fun _ => rfl) (.read fun _ => _) (localAt_freezeAgain args) (localAt_freeze args)

theorem localAt_doInstallShard (args : InstallShardArgs B)
    (h : (Command.installShard args).Contained json) :
    LocalAt part args.shard fun kv => kv.doInstallShard json args :=
  localAt_numbered (fun _ => rfl) (.read fun _ => _) (.read fun _ => _) (localAt_install args h)

theorem localAt_doDeleteShard (args : DeleteShardArgs) :
    LocalAt part args.shard fun kv => kv.doDeleteShard args :=
  localAt_numbered (fun _ => rfl) (.read fun _ => _) (localAt_giveUp args.shard) (localAt_delete args)

theorem localAt_doOp (req : Any (Command B)) (h : req.command.Contained json) :
    LocalAt part req.command.shard fun kv => kv.doOp json req := by
  rcases req with c | c <;> cases c with
  | freezeShard args => exact (localAt_doFreezeShard args).map Reply.freezeShard
  | installShard args => exact (localAt_doInstallShard args h).map Reply.installShard
  | deleteShard args => exact (localAt_doDeleteShard args).map Reply.deleteShard
  | get args => exact (localAt_get args).map Reply.get
  | put args => exact (localAt_put args).map Reply.put

/-- What the group has of a shard after a run is what the requests on that shard alone leave. -/
theorem part_run (kv : KVServer) {reqs : List (Any (Command B))}
    (h : ∀ req ∈ reqs, req.command.Contained json) (s : Tshid) :
    (kv.run json (reqs.filter fun req => req.command.shard = s)).part s = (kv.run json reqs).part s :=
  part_run_filter (fun req hreq => localAt_doOp req (h req hreq)) kv s

end KVServer

/-- Two requests on different shards can change places: the group ends in the same state, and each
is answered as before. -/
theorem shards_independent (json : Json B) (kv : KVServer) (req₁ req₂ : Any (Command B))
    (h₁ : req₁.command.Contained json) (h₂ : req₂.command.Contained json)
    (hne : req₁.command.shard ≠ req₂.command.shard) :
    ((kv.doOp json req₁).1.doOp json req₂).1 = ((kv.doOp json req₂).1.doOp json req₁).1 ∧
      ((kv.doOp json req₂).1.doOp json req₁).2 = (kv.doOp json req₁).2 ∧
      ((kv.doOp json req₁).1.doOp json req₂).2 = (kv.doOp json req₂).2 := by
  have hlocal₁ := KVServer.localAt_doOp req₁ h₁
  have hlocal₂ := KVServer.localAt_doOp req₂ h₂
  refine ⟨?_, hlocal₁.reply_after hlocal₂ hne kv, hlocal₂.reply_after hlocal₁ hne.symm kv⟩
  exact hlocal₂.comm hlocal₁ hne.symm KVServer.part_injective kv

/-- Shard 1 arrives with the key `b` while shard 0, which has the key `m`, is frozen. -/
theorem shards_independent_arrival :
    let kv := KVServer.start.run plainJson [.value (.put ⟨[109], [120], 0⟩)]
    let data := Function.update (emptyStore GoString GoString) [98] (some ⟨[121], 3⟩)
    let install : Any (Command Entries) := .value (.installShard ⟨1, some data, 1⟩)
    let freeze : Any (Command Entries) := .pointer (.freezeShard ⟨0, 1⟩)
    ((kv.doOp plainJson install).1.doOp plainJson freeze).1 =
        ((kv.doOp plainJson freeze).1.doOp plainJson install).1 ∧
      ((kv.doOp plainJson freeze).1.doOp plainJson install).2 = (kv.doOp plainJson install).2 ∧
      ((kv.doOp plainJson install).1.doOp plainJson freeze).2 = (kv.doOp plainJson freeze).2 := by
  intro kv data install freeze
  apply shards_independent plainJson kv install freeze
  · intro entries hentries key hkey
    cases hentries
    have hb : key = [98] := by
      by_contra hne
      exact hkey (Function.update_of_ne hne _ _)
    rw [hb]
    decide
  · trivial
  · decide

end DistributedLabs.ShardKv
