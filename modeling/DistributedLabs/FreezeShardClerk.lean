import DistributedLabs.ShardGroupNumbers

/-!
# The loops of the shard operations of a `shardgrp` clerk

`FreezeShard`, `InstallShard` and `DeleteShard` of the clerk call one server after the other
until one answers `OK`. The handlers of the last two pass on the result of `Submit`
only, so their loops end with the first call that the leader executes. The handler of
`FreezeShard` passes on the result of the operation: a number that is too small is answered with
`ErrMaybe`, and since the number of a shard never goes back, so is every call after it.
-/

namespace DistributedLabs.ShardKv
open Kv TransitionRuns
open Rsm (Any)

variable {B : Type} {m : ℕ}

/-- A handler on the leader: the group after it, and the `State` and `Err` of the reply. -/
abbrev Handler (B : Type) := KVServer → KVServer × Option B × Err

def freezeShard (json : Json B) (args : FreezeShardArgs) : Handler B := fun kv =>
  ((kv.doFreezeShard json args).1, (kv.doFreezeShard json args).2.state,
    (kv.doFreezeShard json args).2.err)

/-- The handler drops the result of the operation. -/
def installShard (json : Json B) (args : InstallShardArgs B) : Handler B := fun kv =>
  ((kv.doInstallShard json args).1, none, .ok)

/-- The handler drops the result of the operation. -/
def deleteShard (args : DeleteShardArgs) : Handler B := fun kv => ((kv.doDeleteShard args).1, none, .ok)

/-- What happens around the calls of one loop: the server that leads at each call, and what the
group executes before it. -/
structure Surroundings (m : ℕ) (B : Type) where
  leader : ℕ → Fin (m + 1)
  before : ℕ → List (Any (Command B))

/-- A loop over `m + 1` servers, and the group. -/
structure Calling (m : ℕ) (B : Type) where
  calls : ℕ
  i : Fin (m + 1)
  kv : KVServer
  returned : Option (Option B × Err)

/-- The server that is called `k` calls later. -/
def position (i : Fin (m + 1)) (k : ℕ) : Fin (m + 1) := Fin.ofNat (m + 1) (i + k)

namespace Calling

def start (lastLeader : Option (Fin (m + 1))) (kv : KVServer) : Calling m B :=
  ⟨0, lastLeader.getD 0, kv, none⟩

/-- One call. Another server than the leader answers `ErrWrongLeader`, or nothing arrives. -/
def round (json : Json B) (env : Surroundings m B) (handler : Handler B) (c : Calling m B) :
    Option (Calling m B) :=
  if c.returned.isSome then none
  else
    let kv := c.kv.run json (env.before c.calls)
    if c.i = env.leader c.calls then
      let r := handler kv
      if r.2.2 = .ok then some { c with calls := c.calls + 1, kv := r.1, returned := some r.2 }
      else some ⟨c.calls + 1, position c.i 1, r.1, none⟩
    else some ⟨c.calls + 1, position c.i 1, kv, none⟩

end Calling

/-- What the group executes before the calls from `first` on, `k` of them. -/
def Surroundings.requests (env : Surroundings m B) (first : ℕ) : ℕ → List (Any (Command B))
  | 0 => []
  | k + 1 => env.before first ++ env.requests (first + 1) k

theorem Surroundings.requests_add (env : Surroundings m B) (first k j : ℕ) :
    env.requests first (k + j) = env.requests first k ++ env.requests (first + k) j := by
  induction k generalizing first with
  | zero => rw [Nat.zero_add, Nat.add_zero, requests, List.nil_append]
  | succ k ih =>
    rw [Nat.add_right_comm, requests, ih, requests, List.append_assoc,
      show first + 1 + k = first + (k + 1) by omega]

@[simp] theorem position_zero (i : Fin (m + 1)) : position i 0 = i := by
  apply Fin.ext
  simp [position, Fin.ofNat, Nat.mod_eq_of_lt i.isLt]

theorem position_add (i : Fin (m + 1)) (k j : ℕ) : position (position i k) j = position i (k + j) := by
  apply Fin.ext
  simp only [position, Fin.ofNat]
  rw [Nat.mod_add_mod, Nat.add_assoc]

theorem position_succ (i : Fin (m + 1)) (k : ℕ) : position i (k + 1) = position (position i 1) k := by
  rw [position_add, Nat.add_comm 1 k]

theorem exists_position (i leader : Fin (m + 1)) : ∃ k, position i k = leader := by
  have hi := i.isLt
  have hl := leader.isLt
  rcases Nat.le_total i.val leader.val with hle | hle
  · refine ⟨leader - i, Fin.ext ?_⟩
    simp only [position, Fin.ofNat]
    rw [Nat.add_sub_cancel' hle, Nat.mod_eq_of_lt hl]
  · refine ⟨m + 1 - i + leader, Fin.ext ?_⟩
    simp only [position, Fin.ofNat]
    rw [show i.val + (m + 1 - i.val + leader.val) = leader.val + (m + 1) by omega,
      Nat.add_mod_right, Nat.mod_eq_of_lt hl]

theorem Surroundings.leader_called (env : Surroundings m B) (i : Fin (m + 1)) {first : ℕ}
    (hstable : ∀ k, first ≤ k → env.leader k = env.leader first) :
    ∃ k, position i k = env.leader k := by
  obtain ⟨j, hj⟩ := exists_position (position i first) (env.leader first)
  refine ⟨first + j, ?_⟩
  rw [← position_add, hj, hstable _ (Nat.le_add_right first j)]

theorem KVServer.run_run (json : Json B) (kv : KVServer) (reqs more : List (Any (Command B))) :
    (kv.run json reqs).run json more = kv.run json (reqs ++ more) := by
  simp [KVServer.run]

namespace Calling
variable {json : Json B} {env : Surroundings m B} {handler : Handler B} {c : Calling m B} {k : ℕ}

theorem round_of_missed (hrun : c.returned = none) (hmissed : c.i ≠ env.leader c.calls) :
    c.round json env handler =
      some ⟨c.calls + 1, position c.i 1, c.kv.run json (env.before c.calls), none⟩ := by
  simp [round, hrun, hmissed]

theorem round_of_ok (hrun : c.returned = none) (hcalled : c.i = env.leader c.calls)
    (hok : (handler (c.kv.run json (env.before c.calls))).2.2 = .ok) :
    ∃ c', c.round json env handler = some c' ∧ c'.returned ≠ none := by
  simp [round, hrun, hcalled, hok]

theorem rounds_of_missed (hrun : c.returned = none)
    (hmissed : ∀ j < k, position c.i j ≠ env.leader (c.calls + j)) :
    rounds (round json env handler) k c =
      some ⟨c.calls + k, position c.i k, c.kv.run json (env.requests c.calls k), none⟩ := by
  induction k generalizing c with
  | zero =>
    rw [rounds, position_zero, ← hrun]
    rfl
  | succ k ih =>
    have hnow : c.i ≠ env.leader c.calls := by
      have := hmissed 0 (Nat.succ_pos k)
      rwa [position_zero] at this
    have hrest : ∀ j < k, position (position c.i 1) j ≠ env.leader (c.calls + 1 + j) := by
      intro j hj
      rw [← position_succ, Nat.add_assoc c.calls, Nat.add_comm 1 j]
      exact hmissed (j + 1) (Nat.succ_lt_succ hj)
    rw [rounds, round_of_missed hrun hnow, Option.bind_some, ih rfl hrest, KVServer.run_run,
      ← position_succ, Nat.add_assoc c.calls, Nat.add_comm 1 k]
    rfl

theorem eventually_returned (hrun : c.returned = none)
    (hcalled : position c.i k = env.leader (c.calls + k))
    (hfirst : ∀ j < k, position c.i j ≠ env.leader (c.calls + j))
    (hok : (handler (c.kv.run json (env.requests c.calls (k + 1)))).2.2 = .ok) :
    Eventually (round json env handler) (fun c => c.returned ≠ none) c := by
  have hrounds : rounds (round json env handler) k c = _ := rounds_of_missed hrun hfirst
  have hrequests : env.requests c.calls (k + 1) = env.requests c.calls k ++ env.before (c.calls + k) := by
    rw [Surroundings.requests_add, Surroundings.requests, Surroundings.requests, List.append_nil]
  rw [hrequests, ← KVServer.run_run] at hok
  obtain ⟨c', hround, hreturned⟩ := round_of_ok
    (c := ⟨c.calls + k, position c.i k, c.kv.run json (env.requests c.calls k), none⟩) rfl hcalled hok
  refine ⟨k + 1, c', ?_, hreturned⟩
  rw [rounds_add hrounds 1, rounds, hround]
  rfl

end Calling

theorem returns_of_always_ok (json : Json B) (env : Surroundings m B) {handler : Handler B}
    (hok : ∀ kv, (handler kv).2.2 = .ok) (lastLeader : Option (Fin (m + 1))) (kv : KVServer)
    {first : ℕ} (hstable : ∀ k, first ≤ k → env.leader k = env.leader first) :
    Eventually (Calling.round json env handler) (fun c => c.returned ≠ none)
      (.start lastLeader kv) := by
  have hcalled := env.leader_called (lastLeader.getD 0) hstable
  refine Calling.eventually_returned (k := Nat.find hcalled) rfl ?_ ?_ (hok _)
  · rw [Calling.start, Nat.zero_add (Nat.find hcalled)]
    exact Nat.find_spec hcalled
  · intro j hj
    rw [Calling.start, Nat.zero_add j]
    exact Nat.find_min hcalled hj

theorem install_and_delete_return (json : Json B) (env : Surroundings m B)
    (lastLeader : Option (Fin (m + 1))) (kv : KVServer) {first : ℕ}
    (hstable : ∀ k, first ≤ k → env.leader k = env.leader first) (args : InstallShardArgs B)
    (args' : DeleteShardArgs) :
    Eventually (Calling.round json env (installShard json args)) (fun c => c.returned ≠ none)
        (.start lastLeader kv) ∧
      Eventually (Calling.round json env (deleteShard args')) (fun c => c.returned ≠ none)
        (.start lastLeader kv) :=
  ⟨returns_of_always_ok json env (fun _ => rfl) lastLeader kv hstable,
    returns_of_always_ok json env (fun _ => rfl) lastLeader kv hstable⟩

namespace KVServer
variable {json : Json B} {kv : KVServer} {s : Tshid} {n : ℕ}

/-- The group has executed a shard operation with a larger number. -/
def Superseded (kv : KVServer) (s : Tshid) (n : ℕ) : Prop := ∃ maxNum ∈ kv.maxShardNum s, n < maxNum

theorem Superseded.run (h : kv.Superseded s n) (json : Json B) (reqs : List (Any (Command B))) :
    (kv.run json reqs).Superseded s n := by
  induction reqs generalizing kv with
  | nil => exact h
  | cons req reqs ih =>
    obtain ⟨maxNum, hmax, hlt⟩ := h
    obtain ⟨maxNum', hmax', hle⟩ := maxShardNum_mono json req hmax
    exact ih ⟨maxNum', hmax', hlt.trans_le hle⟩

theorem freezeShard_of_superseded (h : kv.Superseded s n) :
    freezeShard json ⟨s, n⟩ kv = (kv, none, .errMaybe) := by
  obtain ⟨maxNum, hmax, hlt⟩ := h
  simp [freezeShard, doFreezeShard, Option.mem_def.mp hmax, hlt]

theorem freezeShard_of_not_superseded (h : ¬kv.Superseded s n) :
    (freezeShard json ⟨s, n⟩ kv).2.2 = .ok := by
  unfold freezeShard
  rcases kv.number_cases s n with ⟨maxNum, hmax, hlt⟩ | heq | hfresh
  · exact absurd ⟨maxNum, hmax, hlt⟩ h
  · rw [doFreezeShard_of_eq json ⟨s, n⟩ heq]
  · rw [doFreezeShard_of_fresh json ⟨s, n⟩ hfresh]
    rfl

end KVServer

namespace Calling
variable {json : Json B} {env : Surroundings m B} {c c' : Calling m B} {s : Tshid} {n : ℕ}

/-- Every call that is still to come finds a larger number. -/
structure Doomed (json : Json B) (env : Surroundings m B) (s : Tshid) (n : ℕ) (c : Calling m B) :
    Prop where
  running : c.returned = none
  late : ∀ j, position c.i j = env.leader (c.calls + j) →
    (c.kv.run json (env.requests c.calls (j + 1))).Superseded s n

theorem Doomed.round (h : c.Doomed json env s n)
    (hround : c.round json env (freezeShard json ⟨s, n⟩) = some c') : c'.Doomed json env s n := by
  have hnext : c' = ⟨c.calls + 1, position c.i 1, c.kv.run json (env.before c.calls), none⟩ := by
    by_cases hcalled : c.i = env.leader c.calls
    · have hlate := h.late 0 (by rw [position_zero, hcalled]; rfl)
      rw [Surroundings.requests, Surroundings.requests, List.append_nil] at hlate
      simp only [Calling.round, h.running, hcalled, KVServer.freezeShard_of_superseded hlate] at hround
      simpa [hcalled] using hround.symm
    · rw [round_of_missed h.running hcalled] at hround
      cases hround
      rfl
  subst hnext
  refine ⟨rfl, fun j hj => ?_⟩
  dsimp only at hj ⊢
  rw [← position_succ, Nat.add_assoc c.calls, Nat.add_comm 1 j] at hj
  rw [KVServer.run_run]
  exact h.late (j + 1) hj

theorem Doomed.never_returns (h : c.Doomed json env s n) :
    ¬Eventually (Calling.round json env (freezeShard json ⟨s, n⟩)) (fun c => c.returned ≠ none) c :=
  not_eventually h (fun _ _ hc hround => hc.round hround) fun _ hc hreturned => hreturned hc.running

end Calling

/-- From every state that a group can reach, with whoever else uses it, a clerk's `FreezeShard`
returns if and only if the group has no larger number for the shard when its leader executes the
first call. -/
theorem freezeShard_returns_iff (json : Json B) (reqs : List (Any (Command B)))
    (env : Surroundings m B) (lastLeader : Option (Fin (m + 1))) (s : Tshid) (n k : ℕ)
    (hcalled : position (lastLeader.getD 0) k = env.leader k)
    (hfirst : ∀ j < k, position (lastLeader.getD 0) j ≠ env.leader j) :
    Eventually (Calling.round json env (freezeShard json ⟨s, n⟩)) (fun c => c.returned ≠ none)
        (.start lastLeader (KVServer.start.run json reqs)) ↔
      ¬(KVServer.start.run json (reqs ++ env.requests 0 (k + 1))).Superseded s n := by
  rw [← KVServer.run_run]
  constructor
  · intro hreturns hlate
    refine Calling.Doomed.never_returns ⟨rfl, fun j hj => ?_⟩ hreturns
    rw [Calling.start, Nat.zero_add j] at hj
    have hle : k ≤ j := Nat.le_of_not_lt fun hlt => hfirst j hlt hj
    obtain ⟨d, rfl⟩ := Nat.exists_eq_add_of_le hle
    rw [Nat.add_right_comm, Surroundings.requests_add, ← KVServer.run_run]
    exact hlate.run json _
  · intro hnot
    refine Calling.eventually_returned (k := k) rfl ?_ ?_ (KVServer.freezeShard_of_not_superseded hnot)
    · rw [Calling.start, Nat.zero_add k]
      exact hcalled
    · intro j hj
      rw [Calling.start, Nat.zero_add j]
      exact hfirst j hj

/-- The third of three servers leads, and a controller with number 1 freezes the shard before
every call. -/
theorem freezeShard_returns_iff_third_server :
    Eventually (Calling.round plainJson (m := 2) ⟨fun _ => 2, fun _ => [.pointer (.freezeShard ⟨0, 1⟩)]⟩
        (freezeShard plainJson ⟨0, 2⟩)) (fun c => c.returned ≠ none)
      (.start none (KVServer.start.run plainJson [.value (.put ⟨[109], [120], 0⟩)])) := by
  refine (freezeShard_returns_iff plainJson _ _ none 0 2 2 (by decide) (by decide)).mpr ?_
  rintro ⟨maxNum, hmax, hlt⟩
  have hnumber : (KVServer.start.run plainJson [.value (.put ⟨[109], [120], 0⟩),
      .pointer (.freezeShard ⟨0, 1⟩), .pointer (.freezeShard ⟨0, 1⟩),
      .pointer (.freezeShard ⟨0, 1⟩)]).maxShardNum 0 = some 1 := by decide +kernel
  cases hmax.symm.trans hnumber
  exact absurd hlt (by decide)

/-- A controller with number 2 has frozen the shard. The first of three servers leads, and nobody
else uses the group: a controller with number 1 never comes back from `FreezeShard`. -/
theorem freezeShard_never_returns :
    ¬Eventually (Calling.round plainJson (m := 2) ⟨fun _ => 0, fun _ => []⟩
        (freezeShard plainJson ⟨0, 1⟩)) (fun c => c.returned ≠ none)
      (.start none (KVServer.start.run plainJson [.pointer (.freezeShard ⟨0, 2⟩)])) := by
  have hlate : (KVServer.start.run plainJson [.pointer (.freezeShard ⟨0, 2⟩)]).Superseded 0 1 :=
    ⟨2, by decide +kernel, by decide⟩
  exact Calling.Doomed.never_returns ⟨rfl, fun j _ => hlate.run plainJson _⟩

end DistributedLabs.ShardKv
