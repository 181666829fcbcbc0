import DistributedLabs.LoadBalancing
import DistributedLabs.ShardGroup
import Mathlib.Algebra.Order.Ring.Int
import Mathlib.Data.Finmap
import Mathlib.Data.List.Sort

/-!
# Configurations of `shardcfg`

A configuration assigns each shard to a group. `Join` and `Leave` change the set of groups,
`Rebalance` gives every shard an owner among them and then moves shards from the group that has
the most to the one that has the fewest. Go's loops over a map come to its keys in an order that
may differ from loop to loop.
-/

namespace DistributedLabs.ShardCfg
open LoadBalancing
open ShardKv (GoString Tgid Tshid)

/-- The map from group ids to servers. -/
abbrev Groups := Finmap fun _ : Tgid => List GoString

/-- Any assignment and any map of groups: of the ids and the servers in it nothing is assumed. The
number is an `int`; the controllers count the configurations that they publish in `ℕ`. -/
@[ext]
structure ShardConfig (N : Type) where
  num : N
  shards : Tshid → Tgid
  groups : Groups
  deriving DecidableEq

/-- In which order each loop over a map comes to its keys. -/
structure MapOrder where
  keys : ℕ → Groups → List Tgid
  nodup : ∀ loop groups, (keys loop groups).Nodup
  mem_iff : ∀ loop groups g, g ∈ keys loop groups ↔ g ∈ groups

theorem insertionSort_congr {keys keys' : List Tgid} (h : keys.Perm keys') :
    keys.insertionSort (· ≤ ·) = keys'.insertionSort (· ≤ ·) := by
  apply List.Perm.eq_of_pairwise' (List.pairwise_insertionSort _ _) (List.pairwise_insertionSort _ _)
  exact (List.perm_insertionSort _ keys).trans (h.trans (List.perm_insertionSort _ keys').symm)

/-- Every loop in ascending order. -/
def MapOrder.ascending : MapOrder where
  keys _ groups := groups.keys.val.liftOn (List.insertionSort (· ≤ ·)) fun _ _ => insertionSort_congr
  nodup _ groups := by
    induction groups using Finmap.induction_on with
    | H servers => exact (List.perm_insertionSort _ _).nodup_iff.mpr servers.nodupKeys
  mem_iff _ groups g := by
    induction groups using Finmap.induction_on with
    | H servers => exact List.mem_insertionSort _

variable {N : Type}

def makeShardConfig [Zero N] : ShardConfig N := ⟨0, fun _ => 0, ∅⟩

namespace ShardConfig

/-- The map `counts` after the loop over the shards. -/
def counts (c : ShardConfig N) : Tgid → ℤ :=
  (List.ofFn c.shards).foldl (fun counts g => Function.update counts g (counts g + 1)) fun _ => 0

/-- The groups with the most and with the fewest shards, and how many these are. -/
structure Extremes where
  mg : Tgid
  mn : ℤ
  lg : Tgid
  ln : ℤ

namespace Extremes
variable (counts : Tgid → ℤ) (e : Extremes) (g : Tgid)

/-- The two comparisons in the loop over the sorted group ids. -/
def lower : Extremes := if counts g < e.ln then { e with ln := counts g, lg := g } else e

@[inherit_doc lower] def raise : Extremes :=
  if counts g > e.mn then { e with mn := counts g, mg := g } else e

def see : Extremes := (e.lower counts g).raise counts g

end Extremes

def analyze (keys : List Tgid) (c : ShardConfig N) : Extremes :=
  (keys.insertionSort (· ≤ ·)).foldl (Extremes.see c.counts) ⟨-1, -1, -1, 257⟩

def least (keys : List Tgid) (c : ShardConfig N) : Tgid := (c.analyze keys).lg

def give (c : ShardConfig N) (s : Tshid) (g : Tgid) : ShardConfig N :=
  { c with shards := Function.update c.shards s g }

/-- A shard whose owner is no group goes to a group that has the fewest. The loop ranges over a copy
of the array, so the owner is read in `c`. -/
def assignShard (order : MapOrder) (c now : ShardConfig N) (s : Tshid) : ShardConfig N :=
  if c.shards s ∈ c.groups then now else now.give s (now.least (order.keys s now.groups))

def assignUnassigned (order : MapOrder) (c : ShardConfig N) : ShardConfig N :=
  (List.finRange 12).foldl (c.assignShard order) c

/-- One round of the loop that moves shards; `none` is its `break`. -/
def moveOne (keys : List Tgid) (c : ShardConfig N) : Option (ShardConfig N) :=
  let e := c.analyze keys
  if e.mn < e.ln + 2 then none
  else
    match (List.finRange 12).find? fun s => c.shards s = e.mg with
    | some s => some (c.give s e.lg)
    | none => some c

/-- The loop, which has no bound; here it stops with `none` when the fuel is used up. -/
def balance (order : MapOrder) (c : ShardConfig N) (loop : ℕ) : (fuel : ℕ) → Option (ShardConfig N)
  | 0 => none
  | fuel + 1 =>
    match c.moveOne (order.keys loop c.groups) with
    | none => some c
    | some c' => balance order c' (loop + 1) fuel

def rebalance (order : MapOrder) (fuel : ℕ) (c : ShardConfig N) : Option (ShardConfig N) :=
  if c.groups.keys.card < 1 then some { c with shards := fun _ => 0 }
  else (c.assignUnassigned order).balance order 12 fuel

/-- Why a call does not return: one of the two calls of `log.Fatalf`, or the fuel. -/
inductive Halt
  | serverInTwoGroups (gid : Tgid)
  | noChange
  | fuel
  deriving DecidableEq

/-- Some server of the list is in a group already. -/
def Overlaps (groups : Groups) (servers : List GoString) : Prop :=
  ∃ xgid ∈ groups.keys, ∃ s1 ∈ (groups.lookup xgid).getD [], s1 ∈ servers

instance (groups : Groups) (servers : List GoString) : Decidable (Overlaps groups servers) :=
  inferInstanceAs (Decidable (∃ xgid ∈ groups.keys, _))

variable [Add N] [One N]

def joinLoop (c : ShardConfig N) (changed : Bool) :
    List (Σ _ : Tgid, List GoString) → Except Halt (Bool × ShardConfig N)
  | [] => if changed then .ok (true, { c with num := c.num + 1 }) else .error .noChange
  | ⟨gid, servers⟩ :: rest =>
    if gid ∈ c.groups then .ok (false, c)
    else if Overlaps c.groups servers then .error (.serverInTwoGroups gid)
    else joinLoop { c with groups := c.groups.insert gid servers } true rest

/-- `servers` is the map in the order in which the loop comes to its entries. -/
def join (c : ShardConfig N) (servers : AList fun _ : Tgid => List GoString) :
    Except Halt (Bool × ShardConfig N) := c.joinLoop false servers.entries

def leaveLoop (c : ShardConfig N) (changed : Bool) : List Tgid → Except Halt (Bool × ShardConfig N)
  | [] => if changed then .ok (true, { c with num := c.num + 1 }) else .error .noChange
  | gid :: rest =>
    if gid ∈ c.groups then leaveLoop { c with groups := c.groups.erase gid } true rest
    else .ok (false, c)

def leave (c : ShardConfig N) (gids : List Tgid) : Except Halt (Bool × ShardConfig N) :=
  c.leaveLoop false gids

/-- What `JoinBalance` and `LeaveBalance` make of the result of `Join` and `Leave`. -/
def thenRebalance (order : MapOrder) (fuel : ℕ) :
    Except Halt (Bool × ShardConfig N) → Except Halt (Bool × ShardConfig N)
  | .ok (true, c) =>
    match c.rebalance order fuel with
    | some c' => .ok (true, c')
    | none => .error .fuel
  | result => result

def joinBalance (order : MapOrder) (fuel : ℕ) (c : ShardConfig N)
    (servers : AList fun _ : Tgid => List GoString) : Except Halt (Bool × ShardConfig N) :=
  thenRebalance order fuel (c.join servers)

def leaveBalance (order : MapOrder) (fuel : ℕ) (c : ShardConfig N) (gids : List Tgid) :
    Except Halt (Bool × ShardConfig N) :=
  thenRebalance order fuel (c.leave gids)

end ShardConfig

end DistributedLabs.ShardCfg
