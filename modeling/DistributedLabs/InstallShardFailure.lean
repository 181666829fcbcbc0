import DistributedLabs.FreezeShardClerk

/-!
# Installs that fail

`doInstallShard` sets the number of the shard and takes its mark away before it decodes the
`State`. When the decoding fails, both stay changed: the number of the request has been used, and
a second request with it is taken for a repetition. The handler answers with the result of
`Submit`, so whoever sent the request learns nothing of it.
-/

namespace DistributedLabs.ShardKv
open Kv
open Rsm (Any)

variable {B : Type} {json : Json B} {kv : KVServer} {args : InstallShardArgs B}

/-- The map that the request brings. -/
def InstallShardArgs.data (json : Json B) (args : InstallShardArgs B) : Option Entries :=
  args.state.bind json.unmarshal

/-- If the install fails, the group is as before, the RPC does not answer `OK`, and a later install
of the same shard and number that can be decoded does what it would have done without the first. -/
def FailsCleanly (json : Json B) (kv : KVServer) (args : InstallShardArgs B) : Prop :=
  (kv.doInstallShard json args).2.err ≠ .ok →
    (kv.doInstallShard json args).1 = kv ∧ (installShard json args kv).2.2 ≠ .ok ∧
      ∀ (mid : List (Any (Command B))) (retry : InstallShardArgs B), retry.shard = args.shard →
        retry.num = args.num → (retry.data json).isSome →
          ((kv.doInstallShard json args).1.run json mid).doInstallShard json retry =
            (kv.run json mid).doInstallShard json retry

namespace KVServer

theorem install_of_data {data : Entries} (h : args.data json = some data) :
    (kv.install json args).2.err = .ok := by
  rw [InstallShardArgs.data] at h
  simp [install, h]

/-- The group after an install that could not be decoded. -/
def spend (kv : KVServer) (s : Tshid) (num : ℕ) : KVServer :=
  { kv with
    maxShardNum := Function.update kv.maxShardNum s (some num)
    migratedShards := Function.update kv.migratedShards s false }

theorem install_of_no_data (h : args.data json = none) :
    kv.install json args = (kv.spend args.shard args.num, ⟨.errMaybe⟩) := by
  rw [InstallShardArgs.data] at h
  simp [install, h, spend]

theorem spend_ne {s : Tshid} {num : ℕ} (h : kv.Fresh s num) : kv.spend s num ≠ kv := by
  intro heq
  have hnum : kv.maxShardNum s = some num := by
    rw [← heq]
    exact Function.update_self ..
  exact h.not_seen hnum le_rfl

theorem doInstallShard_cases (json : Json B) (kv : KVServer) (args : InstallShardArgs B) :
    kv.Superseded args.shard args.num ∧ kv.doInstallShard json args = (kv, ⟨.errMaybe⟩) ∨
      kv.maxShardNum args.shard = some args.num ∧ kv.doInstallShard json args = (kv, ⟨.ok⟩) ∨
      kv.Fresh args.shard args.num ∧ kv.doInstallShard json args = kv.install json args := by
  rcases kv.number_cases args.shard args.num with ⟨maxNum, hmax, hlt⟩ | heq | hfresh
  · exact Or.inl ⟨⟨maxNum, hmax, hlt⟩, by simp [doInstallShard, hmax, hlt]⟩
  · exact Or.inr (Or.inl ⟨heq, doInstallShard_of_eq json args heq⟩)
  · exact Or.inr (Or.inr ⟨hfresh, doInstallShard_of_fresh json args hfresh⟩)

theorem Superseded.not_fresh {s : Tshid} {num : ℕ} (h : kv.Superseded s num) : ¬kv.Fresh s num := by
  obtain ⟨maxNum, hmax, hlt⟩ := h
  exact fun hfresh => hfresh.not_seen hmax hlt.le

theorem Superseded.ne {s : Tshid} {num : ℕ} (h : kv.Superseded s num) : kv.maxShardNum s ≠ some num := by
  obtain ⟨maxNum, hmax, hlt⟩ := h
  intro heq
  cases hmax.symm.trans heq
  exact lt_irrefl _ hlt

end KVServer

open KVServer

/-- No install fails cleanly: only a repetition and a new number with a `State` that can be decoded
meet the condition, and these do not fail. A failed install keeps the group only if it fails for
its number. -/
theorem install_fails_cleanly_iff (json : Json B) (kv : KVServer) (args : InstallShardArgs B) :
    (FailsCleanly json kv args ↔ kv.maxShardNum args.shard = some args.num ∨
      kv.Fresh args.shard args.num ∧ (args.data json).isSome) ∧
    (((kv.doInstallShard json args).2.err ≠ .ok → (kv.doInstallShard json args).1 = kv) ↔
      ¬(kv.Fresh args.shard args.num ∧ args.data json = none)) := by
  have hrpc : (installShard json args kv).2.2 = .ok := rfl
  rcases doInstallShard_cases json kv args with ⟨hlate, hres⟩ | ⟨heq, hres⟩ | ⟨hfresh, hres⟩
  · constructor
    · simp [FailsCleanly, hres, hrpc, hlate.ne, hlate.not_fresh]
    · simp [hres, hlate.not_fresh]
  · have hseen : ¬kv.Fresh args.shard args.num := fun hfresh => hfresh.not_seen heq le_rfl
    constructor
    · simp [FailsCleanly, hres, heq]
    · simp [hres, hseen]
  · have hne : kv.maxShardNum args.shard ≠ some args.num := fun heq => hfresh.not_seen heq le_rfl
    cases hdata : args.data json with
    | some data =>
      have hok := kv.install_of_data hdata
      constructor
      · simp [FailsCleanly, hres, hok, hfresh]
      · simp [hres, hok]
    | none =>
      have hspend := spend_ne hfresh
      constructor
      · simp [FailsCleanly, hres, install_of_no_data hdata, hspend, hne]
      · simp [hres, install_of_no_data hdata, hspend, hfresh]

/-- A new group gets shard 0 with an empty `State`, and then with the key `m`: the first request
fails and is answered `OK`, the second is answered `OK` and not installed. -/
theorem failed_install_spends_number :
    let lost : InstallShardArgs Entries := ⟨0, none, 1⟩
    let retry : InstallShardArgs Entries :=
      ⟨0, some (Function.update (emptyStore _ _) [109] (some ⟨[120], 1⟩)), 1⟩
    let kv := (KVServer.start.doInstallShard plainJson lost).1
    ¬FailsCleanly plainJson .start lost ∧
      (KVServer.start.doInstallShard plainJson lost).2.err = .errMaybe ∧
      (installShard plainJson lost .start).2.2 = .ok ∧
      KVServer.start.maxShardNum 0 = none ∧ kv.maxShardNum 0 = some 1 ∧
      (kv.doInstallShard plainJson retry).2.err = .ok ∧
      (kv.doInstallShard plainJson retry).1.keyValue [109] = none ∧
      (KVServer.start.doInstallShard plainJson retry).1.keyValue [109] = some ⟨[120], 1⟩ := by
  intro lost retry kv
  have hkv : KVServer.start.doInstallShard plainJson lost =
      (KVServer.start.spend 0 1, ⟨.errMaybe⟩) := by
    have hdata : lost.data plainJson = none := rfl
    exact install_of_no_data hdata
  have hretry : kv.doInstallShard plainJson retry = (kv, ⟨.ok⟩) :=
    doInstallShard_of_eq plainJson retry rfl
  rw [hretry, hkv]
  refine ⟨fun h => (h ?_).2.1 rfl, rfl, rfl, rfl, rfl, rfl, rfl, by decide⟩
  rw [hkv]
  decide

end DistributedLabs.ShardKv
