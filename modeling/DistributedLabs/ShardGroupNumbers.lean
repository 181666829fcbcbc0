import DistributedLabs.ShardGroup

/-!
# What the numbers of shard operations do

A group keeps one number for each shard. It takes a freeze, an install or a delete
with a smaller number for a late one and with an equal number for a repeated one.
Hence the number of a shard never goes back, and a request that was executed once
changes nothing when it comes again.

A delete carries the number of the freeze before it. The group takes it for a
repetition and keeps the entries of the shard that it gives away.
-/

namespace DistributedLabs.ShardKv
open Kv
open Rsm (Any)

variable {B : Type}

/-- The shard and the number of a shard operation. -/
def Command.target : Command B → Option (Tshid × ℕ)
  | .freezeShard args => some (args.shard, args.num)
  | .installShard args => some (args.shard, args.num)
  | .deleteShard args => some (args.shard, args.num)
  | .get _ | .put _ => none

namespace KVServer
variable {json : Json B} {kv : KVServer} {s : Tshid} {n : ℕ} {req : Any (Command B)}

/-- The group after a list of requests. -/
def run (json : Json B) (kv : KVServer) (reqs : List (Any (Command B))) : KVServer :=
  reqs.foldl (fun kv req => (kv.doOp json req).1) kv

theorem run_append (reqs : List (Any (Command B))) (req : Any (Command B)) :
    run json kv (reqs ++ [req]) = ((run json kv reqs).doOp json req).1 := by
  simp [run]

/-- A number that the group has seen for the shard is smaller than, equal to or larger than
another. -/
theorem number_cases (kv : KVServer) (s : Tshid) (n : ℕ) :
    (∃ maxNum, kv.maxShardNum s = some maxNum ∧ n < maxNum) ∨ kv.maxShardNum s = some n ∨
      kv.Fresh s n := by
  cases hx : kv.maxShardNum s with
  | none => exact Or.inr (Or.inr fun maxNum hmax => nomatch hx.symm.trans hmax)
  | some maxNum =>
    rcases lt_trichotomy n maxNum with hlt | rfl | hgt
    · exact Or.inl ⟨maxNum, rfl, hlt⟩
    · exact Or.inr (Or.inl rfl)
    · right
      right
      intro m hm
      cases hx.symm.trans hm
      exact hgt

theorem doDeleteShard_of_fresh (args : DeleteShardArgs) (h : kv.Fresh args.shard args.num) :
    kv.doDeleteShard args = kv.delete args := by
  unfold doDeleteShard
  cases hx : kv.maxShardNum args.shard with
  | none => rfl
  | some maxNum =>
    have hlt := h maxNum hx
    simp [hlt.not_gt, hlt.ne']

theorem doOp_eq_value (req : Any (Command B)) :
    (kv.doOp json req).1 = (kv.doOp json (.value req.command)).1 := by
  rcases req with c | c
  · cases c <;> rfl
  · rfl

/-- The shard is marked as given away. -/
def giveUp (kv : KVServer) (s : Tshid) : KVServer :=
  { kv with
    migratedShards := Function.update kv.migratedShards s true
    frozenShards := Function.update kv.frozenShards s false }

/-- What a shard operation can do, by the number that the group has for the shard. -/
inductive ShardStep (json : Json B) (kv : KVServer) : Command B → Tshid → ℕ → KVServer → Prop
  | late (c : Command B) (s : Tshid) (n maxNum : ℕ) (target : c.target = some (s, n))
      (number : kv.maxShardNum s = some maxNum) (lt : n < maxNum) : ShardStep json kv c s n kv
  | frozenBefore (args : FreezeShardArgs) (number : kv.maxShardNum args.shard = some args.num) :
      ShardStep json kv (.freezeShard args) args.shard args.num kv
  | installedBefore (args : InstallShardArgs B)
      (number : kv.maxShardNum args.shard = some args.num) :
      ShardStep json kv (.installShard args) args.shard args.num kv
  | deletedBefore (args : DeleteShardArgs) (number : kv.maxShardNum args.shard = some args.num) :
      ShardStep json kv (.deleteShard args) args.shard args.num (kv.giveUp args.shard)
  | freeze (args : FreezeShardArgs) (fresh : kv.Fresh args.shard args.num) :
      ShardStep json kv (.freezeShard args) args.shard args.num (kv.freeze json args).1
  | install (args : InstallShardArgs B) (fresh : kv.Fresh args.shard args.num) :
      ShardStep json kv (.installShard args) args.shard args.num (kv.install json args).1
  | delete (args : DeleteShardArgs) (fresh : kv.Fresh args.shard args.num) :
      ShardStep json kv (.deleteShard args) args.shard args.num (kv.delete args).1

theorem shardStep_doOp (json : Json B) (kv : KVServer) (ht : req.command.target = some (s, n)) :
    ShardStep json kv req.command s n (kv.doOp json req).1 := by
  rw [doOp_eq_value]
  revert ht
  cases req.command with
  | get args => nofun
  | put args => nofun
  | freezeShard args =>
    rintro ⟨⟩
    rcases kv.number_cases args.shard args.num with ⟨maxNum, hmax, hlt⟩ | heq | hfresh
    · simp only [doOp, doFreezeShard, hmax, hlt, if_true]
      exact .late _ _ _ maxNum rfl hmax hlt
    · simp only [doOp, doFreezeShard_of_eq json args heq]
      exact .frozenBefore args heq
    · simp only [doOp, doFreezeShard_of_fresh json args hfresh]
      exact .freeze args hfresh
  | installShard args =>
    rintro ⟨⟩
    rcases kv.number_cases args.shard args.num with ⟨maxNum, hmax, hlt⟩ | heq | hfresh
    · simp only [doOp, doInstallShard, hmax, hlt, if_true]
      exact .late _ _ _ maxNum rfl hmax hlt
    · simp only [doOp, doInstallShard_of_eq json args heq]
      exact .installedBefore args heq
    · simp only [doOp, doInstallShard_of_fresh json args hfresh]
      exact .install args hfresh
  | deleteShard args =>
    rintro ⟨⟩
    rcases kv.number_cases args.shard args.num with ⟨maxNum, hmax, hlt⟩ | heq | hfresh
    · simp only [doOp, doDeleteShard, hmax, hlt, if_true]
      exact .late _ _ _ maxNum rfl hmax hlt
    · change ShardStep json kv _ _ _ (kv.doDeleteShard args).1
      rw [doDeleteShard_of_eq args heq]
      exact .deletedBefore args heq
    · simp only [doOp, doDeleteShard_of_fresh args hfresh]
      exact .delete args hfresh

/-- What the group keeps about a shard besides its entries. -/
def standing (kv : KVServer) (s : Tshid) : Option ℕ × Bool × Bool :=
  (kv.maxShardNum s, kv.migratedShards s, kv.frozenShards s)

theorem install_maxShardNum (args : InstallShardArgs B) : (kv.install json args).1.maxShardNum =
    Function.update kv.maxShardNum args.shard (some args.num) := by
  unfold install
  cases args.state.bind json.unmarshal <;> rfl

theorem ShardStep.standing {c : Command B} {kv' : KVServer} (h : ShardStep json kv c s n kv')
    {t : Tshid} (hne : t ≠ s) : kv'.standing t = kv.standing t := by
  cases h with
  | late | frozenBefore | installedBefore => rfl
  | deletedBefore => simp [KVServer.standing, giveUp, hne]
  | freeze args => simp [KVServer.standing, KVServer.freeze, hne]
  | install args =>
    unfold KVServer.install
    cases args.state.bind json.unmarshal <;> simp [KVServer.standing, hne]
  | delete args => simp [KVServer.standing, KVServer.delete, hne]

theorem standing_of_client (json : Json B) (kv : KVServer) (h : req.command.target = none)
    (t : Tshid) : (kv.doOp json req).1.standing t = kv.standing t := by
  rw [doOp_eq_value]
  revert h
  cases req.command with
  | get args => exact fun _ => rfl
  | put args =>
    intro _
    rcases kv.accepts_or_turnsAway (key2Shard args.key) with ha | ht
    · simp only [doOp, put_of_accepts args ha]
      rfl
    · simp only [doOp, put_of_turnsAway args ht]
      rfl
  | freezeShard | installShard | deleteShard => nofun

theorem standing_of_other (json : Json B) (kv : KVServer)
    (h : ∀ n, req.command.target ≠ some (s, n)) :
    (kv.doOp json req).1.standing s = kv.standing s := by
  cases ht : req.command.target with
  | none => exact standing_of_client json kv ht s
  | some target =>
    apply (shardStep_doOp json kv ht).standing
    rintro rfl
    exact h target.2 ht

theorem ShardStep.maxShardNum {c : Command B} {kv' : KVServer} (h : ShardStep json kv c s n kv') :
    ∃ maxNum, kv'.maxShardNum s = some maxNum ∧ n ≤ maxNum ∧
      ∀ m ∈ kv.maxShardNum s, m ≤ maxNum := by
  have hnew : ∀ {s n}, kv.Fresh s n →
      ∃ maxNum, Function.update kv.maxShardNum s (some n) s = some maxNum ∧ n ≤ maxNum ∧
        ∀ m ∈ kv.maxShardNum s, m ≤ maxNum :=
    fun hfresh => ⟨_, Function.update_self .., le_rfl, fun m hm => (hfresh m hm).le⟩
  have hsame : ∀ {s n maxNum}, kv.maxShardNum s = some maxNum → n ≤ maxNum →
      ∃ maxNum, kv.maxShardNum s = some maxNum ∧ n ≤ maxNum ∧ ∀ m ∈ kv.maxShardNum s, m ≤ maxNum := by
    intro s n maxNum hmax hle
    refine ⟨maxNum, hmax, hle, fun m hm => ?_⟩
    cases hmax.symm.trans hm
    exact le_rfl
  cases h with
  | late c s n maxNum _ hmax hlt => exact hsame hmax hlt.le
  | frozenBefore args heq => exact hsame heq le_rfl
  | installedBefore args heq => exact hsame heq le_rfl
  | deletedBefore args heq => exact hsame heq le_rfl
  | freeze args hfresh => exact hnew hfresh
  | install args hfresh =>
    rw [install_maxShardNum]
    exact hnew hfresh
  | delete args hfresh => exact hnew hfresh

theorem maxShardNum_mono (json : Json B) (req : Any (Command B)) {maxNum : ℕ}
    (h : kv.maxShardNum s = some maxNum) :
    ∃ maxNum', (kv.doOp json req).1.maxShardNum s = some maxNum' ∧ maxNum ≤ maxNum' := by
  by_cases ht : ∃ n, req.command.target = some (s, n)
  · obtain ⟨n, ht⟩ := ht
    obtain ⟨maxNum', hmax', -, hle⟩ := (shardStep_doOp json kv ht).maxShardNum
    exact ⟨maxNum', hmax', hle maxNum h⟩
  · have hother := standing_of_other json kv (not_exists.mp ht)
    exact ⟨maxNum, (congrArg Prod.fst hother).trans h, le_rfl⟩

theorem ShardStep.of_seen {c : Command B} {kv' : KVServer} (h : ShardStep json kv c s n kv')
    {maxNum : ℕ} (hmax : kv.maxShardNum s = some maxNum) (hle : n ≤ maxNum) :
    kv' = kv ∨ n = maxNum ∧ (∃ args, c = .deleteShard args) ∧ kv' = kv.giveUp s := by
  cases h with
  | late | frozenBefore | installedBefore => exact Or.inl rfl
  | deletedBefore args heq =>
    cases heq.symm.trans hmax
    exact Or.inr ⟨rfl, ⟨args, rfl⟩, rfl⟩
  | freeze _ hfresh => exact absurd hle (hfresh maxNum hmax).not_ge
  | install _ hfresh => exact absurd hle (hfresh maxNum hmax).not_ge
  | delete _ hfresh => exact absurd hle (hfresh maxNum hmax).not_ge

theorem ShardStep.given_up {args : DeleteShardArgs} {kv' : KVServer}
    (h : ShardStep json kv (.deleteShard args) s n kv') (hmax : kv'.maxShardNum s = some n) :
    kv'.migratedShards s = true ∧ kv'.frozenShards s = false := by
  cases h with
  | late _ _ _ m _ hm hlt =>
    cases hm.symm.trans hmax
    exact absurd hlt (lt_irrefl _)
  | deletedBefore => simp [giveUp]
  | delete => simp [KVServer.delete]

/-- The group has executed the request or a later one on its shard. -/
def Absorbs (kv : KVServer) (c : Command B) : Prop :=
  ∀ s n, c.target = some (s, n) → ∃ maxNum, kv.maxShardNum s = some maxNum ∧ n ≤ maxNum ∧
    (n = maxNum → (∃ args, c = .deleteShard args) →
      kv.migratedShards s = true ∧ kv.frozenShards s = false)

theorem absorbs_doOp (json : Json B) (kv : KVServer) (req : Any (Command B)) :
    (kv.doOp json req).1.Absorbs req.command := by
  intro s n ht
  have hstep := shardStep_doOp json kv ht
  obtain ⟨maxNum, hmax, hle, -⟩ := hstep.maxShardNum
  refine ⟨maxNum, hmax, hle, ?_⟩
  rintro rfl ⟨args, hargs⟩
  rw [hargs] at hstep
  exact hstep.given_up hmax

theorem Absorbs.doOp {c : Command B} (h : kv.Absorbs c) (json : Json B) (req : Any (Command B)) :
    (kv.doOp json req).1.Absorbs c := by
  intro s n ht
  obtain ⟨maxNum, hmax, hle, hmarks⟩ := h s n ht
  by_cases hr : ∃ k, req.command.target = some (s, k)
  · obtain ⟨k, hr⟩ := hr
    have hstep := shardStep_doOp json kv hr
    obtain ⟨maxNum', hmax', hk, hmono⟩ := hstep.maxShardNum
    refine ⟨maxNum', hmax', hle.trans (hmono maxNum hmax), ?_⟩
    rintro rfl hdelete
    obtain rfl : n = maxNum := Nat.le_antisymm hle (hmono maxNum hmax)
    rcases hstep.of_seen hmax hk with heq | ⟨-, -, heq⟩ <;> rw [heq]
    · exact hmarks rfl hdelete
    · simp [giveUp]
  · have hother := standing_of_other json kv (not_exists.mp hr)
    simp only [standing, Prod.mk.injEq] at hother
    rw [hother.1, hother.2.1, hother.2.2]
    exact ⟨maxNum, hmax, hle, hmarks⟩

theorem Absorbs.doOp_eq (h : kv.Absorbs req.command) (json : Json B)
    (ht : req.command.target = some (s, n)) : (kv.doOp json req).1 = kv := by
  obtain ⟨maxNum, hmax, hle, hmarks⟩ := h s n ht
  rcases (shardStep_doOp json kv ht).of_seen hmax hle with heq | ⟨rfl, hdelete, heq⟩
  · exact heq
  · obtain ⟨hmigrated, hfrozen⟩ := hmarks rfl hdelete
    rw [heq, giveUp, ← hmigrated, ← hfrozen, Function.update_eq_self, Function.update_eq_self]

theorem absorbs_run (json : Json B) (kv : KVServer) (reqs : List (Any (Command B)))
    (hreq : req ∈ reqs) : (kv.run json reqs).Absorbs req.command := by
  induction reqs using List.reverseRecOn with
  | nil => cases hreq
  | append_singleton reqs last ih =>
    rw [run_append]
    rcases List.mem_append.mp hreq with hreq | hreq
    · exact (ih hreq).doOp json last
    · rw [List.mem_singleton.mp hreq]
      exact absorbs_doOp json _ last

end KVServer

/-- After any requests, a freeze, an install or a delete that was among them changes nothing when
it comes again, in either form; no request lowers the number of a shard; and a shard operation
with a smaller number changes nothing. -/
theorem late_shard_operations_harmless (json : Json B) (reqs : List (Any (Command B))) :
    (∀ req ∈ reqs, req.command.target ≠ none → ∀ again : Any (Command B),
      again.command = req.command →
        ((KVServer.start.run json reqs).doOp json again).1 = KVServer.start.run json reqs) ∧
    (∀ (req : Any (Command B)) (s : Tshid) (maxNum : ℕ),
      (KVServer.start.run json reqs).maxShardNum s = some maxNum →
        ∃ maxNum', ((KVServer.start.run json reqs).doOp json req).1.maxShardNum s = some maxNum' ∧
          maxNum ≤ maxNum') ∧
    ∀ (req : Any (Command B)) (s : Tshid) (n maxNum : ℕ), req.command.target = some (s, n) →
      (KVServer.start.run json reqs).maxShardNum s = some maxNum → n < maxNum →
        ((KVServer.start.run json reqs).doOp json req).1 = KVServer.start.run json reqs := by
  refine ⟨?_, fun req s maxNum h => KVServer.maxShardNum_mono json req h, ?_⟩
  · intro req hreq ht again hagain
    have habsorbs := KVServer.absorbs_run json .start reqs hreq
    rw [← hagain] at habsorbs ht
    obtain ⟨⟨s, n⟩, ht⟩ := Option.ne_none_iff_exists'.mp ht
    exact habsorbs.doOp_eq json ht
  · intro req s n maxNum ht hmax hlt
    have hstep := KVServer.shardStep_doOp json (KVServer.start.run json reqs) ht
    rcases hstep.of_seen hmax hlt.le with heq | ⟨rfl, -, -⟩
    · exact heq
    · exact absurd hlt (lt_irrefl _)

/-- What may come between a freeze and the delete of the same migration: requests of clients, the
freeze once more, and operations on other shards. -/
def Between (s : Tshid) (n : ℕ) (c : Command B) : Prop :=
  c = .freezeShard ⟨s, n⟩ ∨ ∀ k, c.target ≠ some (s, k)

/-- The request is an install of any shard that brings in a key of this one. -/
def BringsIn (json : Json B) (s : Tshid) (kv : KVServer) (c : Command B) : Prop :=
  ∃ args, c = .installShard args ∧ kv.Fresh args.shard args.num ∧
    ∃ data ∈ args.state.bind json.unmarshal, ∃ key, key2Shard key = s ∧ data key ≠ none

/-- No request of the list brings in a key of the shard when it is executed. -/
def NothingBroughtIn (json : Json B) (s : Tshid) : KVServer → List (Any (Command B)) → Prop
  | _, [] => True
  | kv, req :: rest =>
    ¬BringsIn json s kv req.command ∧ NothingBroughtIn json s (kv.doOp json req).1 rest

namespace KVServer
variable {json : Json B} {kv : KVServer} {s : Tshid} {n : ℕ} {req : Any (Command B)}

/-- The group has no entry of the shard. -/
def Bare (kv : KVServer) (s : Tshid) : Prop := ∀ key, key2Shard key = s → kv.keyValue key = none

/-- The shard is frozen with this number and has not been given away since. -/
structure FrozenAt (kv : KVServer) (s : Tshid) (n : ℕ) : Prop where
  number : kv.maxShardNum s = some n
  frozen : kv.frozenShards s = true

theorem frozenAt_freeze (args : FreezeShardArgs) :
    (kv.freeze json args).1.FrozenAt args.shard args.num :=
  ⟨Function.update_self .., Function.update_self ..⟩

theorem FrozenAt.doOp (h : kv.FrozenAt s n) (json : Json B) (hreq : Between s n req.command) :
    (kv.doOp json req).1.FrozenAt s n := by
  rcases hreq with hagain | hother
  · have hsame : (kv.doOp json req).1 = kv := by
      rw [doOp_eq_value, hagain]
      simp [KVServer.doOp, doFreezeShard_of_eq json ⟨s, n⟩ h.number]
    rw [hsame]
    exact h
  · have hstanding := standing_of_other json kv hother
    simp only [standing, Prod.mk.injEq] at hstanding
    exact ⟨hstanding.1.trans h.number, hstanding.2.2.trans h.frozen⟩

theorem bare_install_iff (args : InstallShardArgs B) :
    (kv.install json args).1.Bare s ↔ kv.Bare s ∧
      ∀ data ∈ args.state.bind json.unmarshal, ∀ key, key2Shard key = s → data key = none := by
  unfold install
  cases args.state.bind json.unmarshal with
  | none => simp [Bare]
  | some data =>
    simp only [Bare, Option.or_eq_none_iff, Option.mem_some_iff, forall_eq']
    constructor
    · exact fun h => ⟨fun key hkey => (h key hkey).2, fun key hkey => (h key hkey).1⟩
    · exact fun h key hkey => ⟨h.2 key hkey, h.1 key hkey⟩

theorem Fresh.not_seen {maxNum : ℕ} (h : kv.Fresh s n) (hmax : kv.maxShardNum s = some maxNum) :
    ¬n ≤ maxNum := (h maxNum hmax).not_ge

theorem ShardStep.bare_iff {c : Command B} {t : Tshid} {kv' : KVServer}
    (h : ShardStep json kv c t n kv') (hne : s ≠ t) :
    kv'.Bare s ↔ kv.Bare s ∧ ¬BringsIn json s kv c := by
  cases h with
  | late c t n maxNum ht hmax hlt =>
    refine (and_iff_left ?_).symm
    rintro ⟨args, rfl, hfresh, -⟩
    cases ht
    exact hfresh.not_seen hmax hlt.le
  | installedBefore args heq =>
    refine (and_iff_left ?_).symm
    rintro ⟨args', hargs, hfresh, -⟩
    cases hargs
    exact hfresh.not_seen heq le_rfl
  | install args hfresh =>
    rw [bare_install_iff]
    refine and_congr_right fun _ => ?_
    simp [BringsIn, hfresh]
  | delete args hfresh =>
    have hkept : (kv.delete args).1.Bare s ↔ kv.Bare s := by
      refine forall₂_congr fun key hkey => ?_
      simp [KVServer.delete, hkey, hne]
    rw [hkept]
    exact (and_iff_left (by simp [BringsIn])).symm
  | frozenBefore | freeze | deletedBefore => exact (and_iff_left (by simp [BringsIn])).symm

theorem bare_doOp_iff (h : kv.FrozenAt s n) (hreq : Between s n req.command) :
    (kv.doOp json req).1.Bare s ↔ kv.Bare s ∧ ¬BringsIn json s kv req.command := by
  cases ht : req.command.target with
  | some target =>
    have hstep := shardStep_doOp json kv ht
    rcases hreq with hagain | hother
    · rw [hagain] at ht hstep ⊢
      cases ht
      rcases hstep.of_seen h.number le_rfl with heq | ⟨-, ⟨args, hargs⟩, -⟩
      · rw [heq]
        exact (and_iff_left (by simp [BringsIn])).symm
      · cases hargs
    · apply hstep.bare_iff
      rintro rfl
      exact hother target.2 ht
  | none =>
    have hnot : ¬BringsIn json s kv req.command := by
      rintro ⟨args, hargs, -⟩
      rw [hargs] at ht
      cases ht
    refine Iff.trans ?_ (and_iff_left hnot).symm
    rw [doOp_eq_value]
    revert ht
    cases req.command with
    | get args => exact fun _ => Iff.rfl
    | put args =>
      intro _
      rcases kv.accepts_or_turnsAway (key2Shard args.key) with ha | hturns
      · simp only [KVServer.doOp, put_of_accepts args ha]
        refine forall₂_congr fun key hkey => ?_
        have hne : key ≠ args.key := by
          rintro rfl
          rw [hkey] at ha
          exact Bool.false_ne_true (ha.2.symm.trans h.frozen)
        exact Eq.congr_left (doPut_of_ne _ args hne)
      · simp only [KVServer.doOp, put_of_turnsAway args hturns]
        exact Iff.rfl
    | freezeShard | installShard | deleteShard => nofun

theorem bare_run_iff (json : Json B) (h : kv.FrozenAt s n) {mid : List (Any (Command B))}
    (hmid : ∀ req ∈ mid, Between s n req.command) :
    (kv.run json mid).FrozenAt s n ∧
      ((kv.run json mid).Bare s ↔ kv.Bare s ∧ NothingBroughtIn json s kv mid) := by
  induction mid generalizing kv with
  | nil => exact ⟨h, (and_iff_left trivial).symm⟩
  | cons req mid ih =>
    have hreq := hmid req (.head _)
    obtain ⟨hfrozen, hbare⟩ := ih (h.doOp json hreq) fun r hr => hmid r (.tail _ hr)
    refine ⟨hfrozen, hbare.trans ?_⟩
    rw [bare_doOp_iff h hreq]
    exact and_assoc

end KVServer

/-- After the freeze of a shard, whatever may come between and the delete, the group has no entry
of the shard if and only if it had none before the freeze and no install of another shard has
brought one in meanwhile. -/
theorem deleted_at_source_iff (json : Json B) (kv : KVServer) (s : Tshid) (n : ℕ)
    (hn : kv.Fresh s n) (frz del : Any (Command B)) (hfrz : frz.command = .freezeShard ⟨s, n⟩)
    (hdel : del.command = .deleteShard ⟨s, n⟩) (mid : List (Any (Command B)))
    (hmid : ∀ req ∈ mid, Between s n req.command) :
    (∀ key, key2Shard key = s → (kv.run json (frz :: mid ++ [del])).keyValue key = none) ↔
      (∀ key, key2Shard key = s → kv.keyValue key = none) ∧
        NothingBroughtIn json s (kv.doOp json frz).1 mid := by
  have hfreeze : (kv.doOp json frz).1 = (kv.freeze json ⟨s, n⟩).1 := by
    rw [KVServer.doOp_eq_value, hfrz]
    simp [KVServer.doOp, KVServer.doFreezeShard_of_fresh json ⟨s, n⟩ hn]
  have hfrozen : (kv.doOp json frz).1.FrozenAt s n := by
    rw [hfreeze]
    exact KVServer.frozenAt_freeze ⟨s, n⟩
  have hkept : (kv.doOp json frz).1.keyValue = kv.keyValue := by
    rw [hfreeze]
    rfl
  obtain ⟨hend, hbare⟩ := KVServer.bare_run_iff json hfrozen hmid
  -- the delete has the number of the freeze, so it only marks the shard
  have hdelete : (kv.run json (frz :: mid ++ [del])).keyValue =
      ((kv.doOp json frz).1.run json mid).keyValue := by
    have hmark := congrArg KVServer.keyValue (KVServer.doDeleteShard_of_eq ⟨s, n⟩ hend.number)
    rw [KVServer.run_append, KVServer.doOp_eq_value, hdel]
    exact hmark
  rw [hdelete]
  refine hbare.trans (and_congr_left' ?_)
  unfold KVServer.Bare
  rw [hkept]

/-- Shard 0 is empty; between its freeze and its delete a client is turned away and shard 1 is
installed. -/
theorem deleted_at_source_iff_empty : KVServer.start.Fresh 0 1 ∧
    ∀ key, key2Shard key = 0 → (KVServer.start.run plainJson
      [.value (.freezeShard ⟨0, 1⟩), .value (.put ⟨[109], [120], 0⟩),
        .value (.installShard ⟨1, some (emptyStore _ _), 1⟩),
        .pointer (.deleteShard ⟨0, 1⟩)]).keyValue key = none := by
  have hmid : ∀ req ∈ [Any.value (.put ⟨[109], [120], 0⟩),
      .value (Command.installShard (B := Entries) ⟨1, some (emptyStore _ _), 1⟩)],
      Between 0 1 req.command := by
    intro req hreq
    simp only [List.mem_cons, List.not_mem_nil, or_false] at hreq
    rcases hreq with rfl | rfl
    · exact Or.inr nofun
    · refine Or.inr fun k hk => ?_
      simp [Any.command, Command.target] at hk
  have hfresh : KVServer.start.Fresh 0 1 := nofun
  refine ⟨hfresh, ?_⟩
  refine (deleted_at_source_iff plainJson .start 0 1 hfresh _ _ rfl rfl _ hmid).mpr
    ⟨fun _ _ => rfl, ?_, ?_, trivial⟩
  · rintro ⟨args, hargs, -⟩
    cases hargs
  · rintro ⟨args, hargs, -, data, hdata, key, -, hkey⟩
    cases hargs
    cases hdata
    exact hkey rfl

/-- A group that has executed a `Put` of the key `m`, freezes its shard and deletes it, both with
number 1, still has the entry. -/
theorem moved_shard_not_deleted : ∃ (kv : KVServer) (key : GoString),
    kv = KVServer.start.run plainJson [.value (.put ⟨[109], [120], 0⟩)] ∧ kv.Fresh 0 1 ∧
      (kv.doFreezeShard plainJson ⟨0, 1⟩).2.err = .ok ∧
      ((kv.doFreezeShard plainJson ⟨0, 1⟩).1.doDeleteShard ⟨0, 1⟩).2.err = .ok ∧
      key2Shard key = 0 ∧
      (kv.run plainJson [.value (.freezeShard ⟨0, 1⟩), .value (.deleteShard ⟨0, 1⟩)]).keyValue key =
        some ⟨[120], 1⟩ := by
  refine ⟨_, [109], rfl, nofun, ?_, ?_, ?_, ?_⟩ <;> decide +kernel

end DistributedLabs.ShardKv
