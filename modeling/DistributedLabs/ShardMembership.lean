import DistributedLabs.ShardRebalance
import DistributedLabs.TransitionRuns

/-!
# Joins and leaves

`Join` and `Leave` change the map of groups while they check the ids they are given. If they get
through, `Rebalance` starts from a balanced configuration to which empty groups have been added or
from which whole groups have been taken, and moves only the shards it must. If they refuse an id
that is not the first, what they did for the ids before it stays.
-/

namespace DistributedLabs.ShardCfg
open LoadBalancing TransitionRuns
open ShardKv (GoString Tgid Tshid)

namespace ShardConfig
variable {N : Type} {c c' : ShardConfig N} {order : MapOrder} {fuel : ℕ} {changed answer : Bool} {g : Tgid}

def addGroups (c : ShardConfig N) (entries : List (Σ _ : Tgid, List GoString)) : ShardConfig N :=
  { c with groups := entries.foldl (fun groups e => groups.insert e.1 e.2) c.groups }

def dropGroups (c : ShardConfig N) (gids : List Tgid) : ShardConfig N :=
  { c with groups := gids.foldl (fun groups gid => groups.erase gid) c.groups }

theorem mem_addGroups {entries : List (Σ _ : Tgid, List GoString)} :
    g ∈ (c.addGroups entries).groups ↔ g ∈ c.groups ∨ g ∈ entries.keys := by
  unfold addGroups
  induction entries generalizing c with
  | nil => simp
  | cons e entries ih =>
    have hrest := ih (c := { c with groups := c.groups.insert e.1 e.2 })
    rw [List.foldl_cons, hrest, Finmap.mem_insert, List.keys_cons, List.mem_cons]
    tauto

theorem mem_dropGroups {gids : List Tgid} :
    g ∈ (c.dropGroups gids).groups ↔ g ∈ c.groups ∧ g ∉ gids := by
  unfold dropGroups
  induction gids generalizing c with
  | nil => simp
  | cons gid gids ih =>
    have hrest := ih (c := { c with groups := c.groups.erase gid })
    rw [List.foldl_cons, hrest, Finmap.mem_erase, List.mem_cons]
    tauto

/-- The loop gets through, or it stops at an id that is in the map by then. -/
theorem joinLoop_eq_ok [Add N] [One N] {entries : List (Σ _ : Tgid, List GoString)}
    (h : c.joinLoop changed entries = .ok (answer, c')) :
    answer = true ∧ c' = { c.addGroups entries with num := c.num + 1 } ∧
        (∀ gid ∈ entries.keys, gid ∉ c.groups) ∧ (changed = true ∨ entries ≠ []) ∨
      answer = false ∧ ∃ first e rest, entries = first ++ e :: rest ∧ c' = c.addGroups first ∧
        (∀ gid ∈ first.keys, gid ∉ c.groups) ∧ e.1 ∈ c'.groups := by
  induction entries generalizing c changed with
  | nil =>
    rw [joinLoop] at h
    split_ifs at h with hchanged
    cases h
    exact Or.inl ⟨rfl, rfl, nofun, Or.inl hchanged⟩
  | cons e entries ih =>
    rw [joinLoop] at h
    split_ifs at h with hmem hoverlap
    · cases h
      exact Or.inr ⟨rfl, [], e, entries, rfl, rfl, nofun, hmem⟩
    · have hfresh : ∀ {l : List (Σ _ : Tgid, List GoString)},
          (∀ gid ∈ l.keys, gid ∉ c.groups.insert e.1 e.2) → ∀ gid ∈ (e :: l).keys, gid ∉ c.groups := by
        intro l hl gid hgid
        rw [List.keys_cons, List.mem_cons] at hgid
        rcases hgid with rfl | hgid
        · exact hmem
        · exact fun hin => hl gid hgid (Finmap.mem_insert.mpr (Or.inr hin))
      rcases ih h with ⟨rfl, rfl, hrest, -⟩ | ⟨rfl, first, e', rest, rfl, rfl, hfirst, hin⟩
      · exact Or.inl ⟨rfl, rfl, hfresh hrest, Or.inr (List.cons_ne_nil _ _)⟩
      · exact Or.inr ⟨rfl, e :: first, e', rest, rfl, rfl, hfresh hfirst, hin⟩

/-- The loop gets through, or it stops at an id that is not in the map any more. -/
theorem leaveLoop_eq_ok [Add N] [One N] {gids : List Tgid}
    (h : c.leaveLoop changed gids = .ok (answer, c')) :
    answer = true ∧ c' = { c.dropGroups gids with num := c.num + 1 } ∧
        (∀ gid ∈ gids, gid ∈ c.groups) ∧ (changed = true ∨ gids ≠ []) ∨
      answer = false ∧ ∃ first gid rest, gids = first ++ gid :: rest ∧ c' = c.dropGroups first ∧
        (∀ gid ∈ first, gid ∈ c.groups) ∧ gid ∉ c'.groups := by
  induction gids generalizing c changed with
  | nil =>
    rw [leaveLoop] at h
    split_ifs at h with hchanged
    cases h
    exact Or.inl ⟨rfl, rfl, nofun, Or.inl hchanged⟩
  | cons gid gids ih =>
    rw [leaveLoop] at h
    split_ifs at h with hmem
    · have hpresent : ∀ {l : List Tgid}, (∀ x ∈ l, x ∈ c.groups.erase gid) →
          ∀ x ∈ gid :: l, x ∈ c.groups := by
        intro l hl x hx
        rcases List.mem_cons.mp hx with rfl | hx
        · exact hmem
        · exact (Finmap.mem_erase.mp (hl x hx)).2
      rcases ih h with ⟨rfl, rfl, hrest, -⟩ | ⟨rfl, first, gid', rest, rfl, rfl, hfirst, hout⟩
      · exact Or.inl ⟨rfl, rfl, hpresent hrest, Or.inr (List.cons_ne_nil _ _)⟩
      · exact Or.inr ⟨rfl, gid :: first, gid', rest, rfl, rfl, hpresent hfirst, hout⟩
    · cases h
      exact Or.inr ⟨rfl, [], gid, gids, rfl, rfl, nofun, hmem⟩

theorem thenRebalance_eq_true {result : Except Halt (Bool × ShardConfig N)}
    (h : thenRebalance order fuel result = .ok (true, c')) :
    ∃ c₁, result = .ok (true, c₁) ∧ c₁.rebalance order fuel = some c' := by
  match result with
  | .ok (true, c₁) =>
    rw [thenRebalance] at h
    cases hrun : c₁.rebalance order fuel with
    | none => simp [hrun] at h
    | some c₂ =>
      rw [hrun] at h
      cases h
      exact ⟨c₁, rfl, hrun⟩
  | .ok (false, _) => simp [thenRebalance] at h
  | .error _ => simp [thenRebalance] at h

theorem thenRebalance_eq_false {result : Except Halt (Bool × ShardConfig N)}
    (h : thenRebalance order fuel result = .ok (false, c')) : result = .ok (false, c') := by
  match result with
  | .ok (true, c₁) =>
    rw [thenRebalance] at h
    cases hrun : c₁.rebalance order fuel with
    | none => simp [hrun] at h
    | some c₂ => simp [hrun] at h
  | .ok (false, _) => exact h
  | .error _ => exact h

/-- A call that is refused has changed nothing exactly if it is the first id that is refused. -/
theorem refused_keeps_config_iff [Add N] [One N] (order : MapOrder) (fuel : ℕ) (c c' : ShardConfig N)
    (servers : AList fun _ : Tgid => List GoString) (gids : List Tgid) :
    (c.joinBalance order fuel servers = .ok (false, c') →
        (c' = c ↔ ∃ gid ∈ servers.keys.head?, gid ∈ c.groups)) ∧
      (c.leaveBalance order fuel gids = .ok (false, c') →
        (c' = c ↔ ∃ gid ∈ gids.head?, gid ∉ c.groups)) := by
  constructor
  · intro h
    rcases joinLoop_eq_ok (thenRebalance_eq_false h) with
      ⟨htrue, -⟩ | ⟨-, first, e, rest, heq, rfl, hfresh, hin⟩
    · cases htrue
    · rw [AList.keys, heq]
      cases first with
      | nil => simpa [addGroups] using hin
      | cons e₀ first =>
        have hnew := hfresh e₀.1 (by simp)
        have hadded : e₀.1 ∈ (c.addGroups (e₀ :: first)).groups := mem_addGroups.mpr (by simp)
        have hne : c.addGroups (e₀ :: first) ≠ c := by
          intro hsame
          rw [hsame] at hadded
          exact hnew hadded
        simpa [hne] using hnew
  · intro h
    rcases leaveLoop_eq_ok (thenRebalance_eq_false h) with
      ⟨htrue, -⟩ | ⟨-, first, gid, rest, rfl, rfl, hpresent, hout⟩
    · cases htrue
    · cases first with
      | nil => simpa [dropGroups] using hout
      | cons gid₀ first =>
        have hold := hpresent gid₀ (by simp)
        have hdropped : gid₀ ∉ (c.dropGroups (gid₀ :: first)).groups := by simp [mem_dropGroups]
        have hne : c.dropGroups (gid₀ :: first) ≠ c := by
          intro hsame
          rw [hsame] at hdropped
          exact hdropped hold
        simpa [hne] using hold

example :
    let c : ShardConfig ℤ := ⟨1, fun _ => 1, [⟨1, []⟩].toFinmap⟩
    c.joinBalance MapOrder.ascending 145 [⟨1, []⟩, ⟨2, []⟩].toAList = .ok (false, c) := rfl

/-- Group 2 has joined although 1, which is in the map already, is refused; and 1 has left although 7,
which is not, is refused. -/
theorem refused_calls_change_groups :
    let c : ShardConfig ℤ := ⟨1, fun _ => 1, [⟨1, []⟩].toFinmap⟩
    (∃ c', c.joinBalance MapOrder.ascending 145 [⟨2, []⟩, ⟨1, []⟩].toAList = .ok (false, c') ∧
        2 ∉ c.groups ∧ 2 ∈ c'.groups) ∧
      ∃ c', c.leaveBalance MapOrder.ascending 145 [1, 7] = .ok (false, c') ∧
        1 ∈ c.groups ∧ 1 ∉ c'.groups := by
  constructor
  · exact ⟨_, rfl, by decide, by decide⟩
  · exact ⟨_, rfl, by decide, by decide⟩

/-- What `Rebalance` leaves. -/
structure Settled (c : ShardConfig N) : Prop where
  unassigned : c.groups = ∅ → ∀ s, c.shards s = 0
  assigned : c.groups ≠ ∅ → ∀ s, c.shards s ∈ c.groups
  balanced : c.groups ≠ ∅ → IsBalanced c.groups.keys c.shards

theorem settled_makeShardConfig [Zero N] : Settled (makeShardConfig : ShardConfig N) where
  unassigned _ _ := rfl
  assigned hne := absurd rfl hne
  balanced hne := absurd rfl hne

theorem settled_rebalance (h : c.rebalance order fuel = some c') :
    c'.num = c.num ∧ c'.groups = c.groups ∧ c'.Settled := by
  rcases eq_or_ne c.groups ∅ with hempty | hgroups
  · rw [rebalance_of_no_groups hempty] at h
    cases h
    exact ⟨rfl, rfl, fun _ _ => rfl, fun hne => absurd hempty hne, fun hne => absurd hempty hne⟩
  · obtain ⟨hnum, heq, hmem, hbalanced, -⟩ :=
      rebalance_keeps (keys_nonempty_iff.mpr hgroups) (keptByMoves_true _) (fun _ _ => trivial) h
    refine ⟨hnum, heq, ?_⟩
    rw [← heq] at hgroups hmem hbalanced
    exact ⟨fun hempty => absurd hempty hgroups, fun _ => hmem, fun _ => hbalanced⟩

/-- `servers` have joined and nothing has been moved yet. -/
structure Joined (c : ShardConfig N) (servers : AList fun _ : Tgid => List GoString)
    (c₁ : ShardConfig N) : Prop where
  shards : c₁.shards = c.shards
  mem_iff : ∀ g, g ∈ c₁.groups ↔ g ∈ c.groups ∨ g ∈ servers
  fresh : ∀ g ∈ servers, g ∉ c.groups
  nonempty : c₁.groups ≠ ∅

/-- The groups of `gids` have left and nothing has been moved yet. -/
structure Left (c : ShardConfig N) (gids : List Tgid) (c₁ : ShardConfig N) : Prop where
  shards : c₁.shards = c.shards
  mem_iff : ∀ g, g ∈ c₁.groups ↔ g ∈ c.groups ∧ g ∉ gids
  nonempty : c.groups ≠ ∅

theorem ne_empty_of_mem {groups : Groups} (h : g ∈ groups) : groups ≠ ∅ := by
  rintro rfl
  exact Finmap.notMem_empty h

theorem joinBalance_eq_true [Add N] [One N] {servers : AList fun _ : Tgid => List GoString}
    (h : c.joinBalance order fuel servers = .ok (true, c')) :
    ∃ c₁, Joined c servers c₁ ∧ c₁.rebalance order fuel = some c' := by
  obtain ⟨c₁, hjoin, hrun⟩ := thenRebalance_eq_true h
  rcases joinLoop_eq_ok hjoin with ⟨-, rfl, hfresh, hchanged⟩ | ⟨hfalse, -⟩
  · refine ⟨_, ?_, hrun⟩
    refine ⟨rfl, fun g => mem_addGroups, hfresh, ?_⟩
    obtain ⟨e, entries, heq⟩ := List.exists_cons_of_ne_nil (hchanged.resolve_left Bool.false_ne_true)
    apply ne_empty_of_mem (g := e.1)
    exact mem_addGroups.mpr (by simp [heq])
  · cases hfalse

theorem leaveBalance_eq_true [Add N] [One N] {gids : List Tgid}
    (h : c.leaveBalance order fuel gids = .ok (true, c')) :
    ∃ c₁, Left c gids c₁ ∧ c₁.rebalance order fuel = some c' := by
  obtain ⟨c₁, hleave, hrun⟩ := thenRebalance_eq_true h
  rcases leaveLoop_eq_ok hleave with ⟨-, rfl, hpresent, hchanged⟩ | ⟨hfalse, -⟩
  · refine ⟨_, ?_, hrun⟩
    refine ⟨rfl, fun g => mem_dropGroups, ?_⟩
    obtain ⟨gid, rest, rfl⟩ := List.exists_cons_of_ne_nil (hchanged.resolve_left Bool.false_ne_true)
    exact ne_empty_of_mem (hpresent gid List.mem_cons_self)
  · cases hfalse

/-- The joined groups are being filled, and only they have got shards. -/
structure Expanding (c : ShardConfig N) (servers : AList fun _ : Tgid => List GoString)
    (now : ShardConfig N) : Prop where
  filling : Filling c.groups.keys servers.keys.toFinset now.shards
  moved : ∀ s, now.shards s = c.shards s ∨ now.shards s ∈ servers

section Join
variable {servers : AList fun _ : Tgid => List GoString} {c₁ now : ShardConfig N}

theorem Joined.keptByMoves_expanding (hjoined : Joined c servers c₁) :
    KeptByMoves c₁.groups (Expanding c servers) := by
  have hkeys : c₁.groups.keys = c.groups.keys ∪ servers.keys.toFinset := by
    ext g
    rw [Finmap.mem_keys, hjoined.mem_iff, Finset.mem_union, Finmap.mem_keys, List.mem_toFinset]
    rfl
  have hdisjoint : Disjoint c.groups.keys servers.keys.toFinset := by
    rw [Finset.disjoint_left]
    intro g hold hnew
    exact hjoined.fresh g (List.mem_toFinset.mp hnew) (Finmap.mem_keys.mp hold)
  intro now s g hnow hmost hfewest hgap
  rw [hkeys] at hmost hfewest
  obtain ⟨-, hg, hfilling⟩ := hnow.filling.move hdisjoint hmost hfewest hgap
  refine ⟨hfilling, fun t => ?_⟩
  rcases eq_or_ne t s with rfl | hne
  · right
    rw [give_shards, Function.update_self]
    exact List.mem_toFinset.mp hg
  · rw [give_shards, Function.update_of_ne hne]
    exact hnow.moved t

theorem Joined.expanding_of_assigned (hjoined : Joined c servers c₁) (hc : c.Settled)
    (hgroups : c.groups ≠ ∅) (hnow : Assigned c₁ (List.finRange 12) now) :
    Expanding c servers now := by
  have hsame : now.shards = c.shards := by
    funext s
    rw [hnow.kept s, hjoined.shards]
    rw [hjoined.shards, hjoined.mem_iff]
    exact Or.inl (hc.assigned hgroups s)
  constructor
  · rw [hsame]
    apply filling_of_empty (hc.balanced hgroups)
    intro g hg
    by_contra hload
    obtain ⟨s, rfl⟩ := load_pos_iff.mp (Nat.pos_of_ne_zero hload)
    exact hjoined.fresh _ (List.mem_toFinset.mp hg) (hc.assigned hgroups s)
  · exact fun s => Or.inl (congrFun hsame s)

theorem Joined.moves_to_joined (hjoined : Joined c servers c₁) (hc : c.Settled)
    (h : c₁.rebalance order fuel = some c') {s : Tshid} (hs : c'.shards s ≠ c.shards s) :
    c'.shards s ∈ servers := by
  have hne := keys_nonempty_iff.mpr hjoined.nonempty
  rcases eq_or_ne c.groups ∅ with hempty | hgroups
  · obtain ⟨-, -, hmem, -⟩ := rebalance_keeps hne (keptByMoves_true _) (fun _ _ => trivial) h
    have hin := (hjoined.mem_iff _).mp (hmem s)
    rw [hempty] at hin
    exact hin.resolve_left Finmap.notMem_empty
  · obtain ⟨-, -, -, -, hexpanding⟩ := rebalance_keeps hne hjoined.keptByMoves_expanding
      (fun _ hnow => hjoined.expanding_of_assigned hc hgroups hnow) h
    exact (hexpanding.moved s).resolve_left hs

end Join

/-- The groups that stay are balanced, and remain so while they get the shards of the others; then
there is nothing to move. -/
theorem Left.moves_from_left {gids : List Tgid} {c₁ : ShardConfig N} (hleft : Left c gids c₁)
    (hc : c.Settled) (h : c₁.rebalance order fuel = some c') {s : Tshid}
    (hs : c'.shards s ≠ c.shards s) : c.shards s ∈ gids := by
  have howner := hc.assigned hleft.nonempty s
  by_contra hstays
  have hgroup : c₁.shards s ∈ c₁.groups := by
    rw [hleft.shards, hleft.mem_iff]
    exact ⟨howner, hstays⟩
  have hne := keys_nonempty_iff.mpr (ne_empty_of_mem hgroup)
  have hbalanced : IsBalanced c₁.groups.keys c₁.shards := by
    rw [hleft.shards]
    apply (hc.balanced hleft.nonempty).mono
    intro g hg
    rw [Finmap.mem_keys, hleft.mem_iff] at hg
    exact Finmap.mem_keys.mpr hg.1
  have hmove : KeptByMoves c₁.groups fun now : ShardConfig N =>
      IsBalanced c₁.groups.keys now.shards ∧ now.shards s = c₁.shards s := by
    rintro now t g ⟨hnow, -⟩ hmost hfewest hgap
    have hle := hnow _ hmost.mem g hfewest.mem
    omega
  obtain ⟨-, -, -, -, -, hkept⟩ := rebalance_keeps hne hmove
    (fun _ hnow => ⟨hnow.balanced hbalanced, hnow.kept s hgroup⟩) h
  apply hs
  rw [hkept, hleft.shards]

inductive MembershipCall
  | joinBalance (order : MapOrder) (fuel : ℕ) (servers : AList fun _ : Tgid => List GoString)
  | leaveBalance (order : MapOrder) (fuel : ℕ) (gids : List Tgid)

def succeed [Add N] [One N] (c : ShardConfig N) (call : MembershipCall) : Option (ShardConfig N) :=
  let result := match call with
    | .joinBalance order fuel servers => c.joinBalance order fuel servers
    | .leaveBalance order fuel gids => c.leaveBalance order fuel gids
  match result with
  | .ok (true, c') => some c'
  | _ => none

theorem succeed_eq_some [Add N] [One N] {call : MembershipCall} (h : c.succeed call = some c') :
    (∃ order fuel servers, call = .joinBalance order fuel servers ∧
        c.joinBalance order fuel servers = .ok (true, c')) ∨
      ∃ order fuel gids, call = .leaveBalance order fuel gids ∧
        c.leaveBalance order fuel gids = .ok (true, c') := by
  unfold succeed at h
  cases call with
  | joinBalance order fuel servers =>
    dsimp only at h
    split at h
    · cases h
      exact Or.inl ⟨order, fuel, servers, rfl, ‹_›⟩
    · cases h
  | leaveBalance order fuel gids =>
    dsimp only at h
    split at h
    · cases h
      exact Or.inr ⟨order, fuel, gids, rfl, ‹_›⟩
    · cases h

/-- What a call that succeeds makes of a configuration is the next one. -/
theorem num_of_succeed [Add N] [One N] {call : MembershipCall} (h : c.succeed call = some c') :
    c'.num = c.num + 1 := by
  rcases succeed_eq_some h with ⟨order, fuel, servers, -, hok⟩ | ⟨order, fuel, gids, -, hok⟩
  · obtain ⟨c₁, hjoin, hrun⟩ := thenRebalance_eq_true hok
    rcases joinLoop_eq_ok hjoin with ⟨-, rfl, -⟩ | ⟨hfalse, -⟩
    · exact (settled_rebalance hrun).1
    · cases hfalse
  · obtain ⟨c₁, hleave, hrun⟩ := thenRebalance_eq_true hok
    rcases leaveLoop_eq_ok hleave with ⟨-, rfl, -⟩ | ⟨hfalse, -⟩
    · exact (settled_rebalance hrun).1
    · cases hfalse

theorem settled_of_reaches [Zero N] [Add N] [One N]
    (h : Reaches succeed anyStep makeShardConfig c) : c.Settled := by
  apply h.invariant settled_makeShardConfig
  intro c call c' _ _ hcall
  rcases succeed_eq_some hcall with ⟨order, fuel, servers, -, hok⟩ | ⟨order, fuel, gids, -, hok⟩
  · obtain ⟨c₁, -, hrun⟩ := joinBalance_eq_true hok
    exact (settled_rebalance hrun).2.2
  · obtain ⟨c₁, -, hrun⟩ := leaveBalance_eq_true hok
    exact (settled_rebalance hrun).2.2

/-- A join moves shards only to the groups that join and a leave only those of the groups that leave,
so no shard moves between two groups that are there before and after. -/
theorem only_forced_moves [Zero N] [Add N] [One N] {c : ShardConfig N}
    (hc : Reaches succeed anyStep makeShardConfig c) (c' : ShardConfig N) (order : MapOrder) (fuel : ℕ) :
    (∀ servers, c.joinBalance order fuel servers = .ok (true, c') →
        ∀ s, c'.shards s ≠ c.shards s → c'.shards s ∈ servers) ∧
      (∀ gids, c.leaveBalance order fuel gids = .ok (true, c') →
        ∀ s, c'.shards s ≠ c.shards s → c.shards s ∈ gids) ∧
      ∀ call, c.succeed call = some c' → ∀ s, c.shards s ∈ c'.groups → c'.shards s ∈ c.groups →
        c'.shards s = c.shards s := by
  have hsettled := settled_of_reaches hc
  refine ⟨fun servers h s hs => ?_, fun gids h s hs => ?_, fun call hcall s hold hnew => ?_⟩
  · obtain ⟨c₁, hjoined, hrun⟩ := joinBalance_eq_true h
    exact hjoined.moves_to_joined hsettled hrun hs
  · obtain ⟨c₁, hleft, hrun⟩ := leaveBalance_eq_true h
    exact hleft.moves_from_left hsettled hrun hs
  · by_contra hs
    rcases succeed_eq_some hcall with ⟨order, fuel, servers, -, h⟩ | ⟨order, fuel, gids, -, h⟩
    · obtain ⟨c₁, hjoined, hrun⟩ := joinBalance_eq_true h
      exact hjoined.fresh _ (hjoined.moves_to_joined hsettled hrun hs) hnew
    · obtain ⟨c₁, hleft, hrun⟩ := leaveBalance_eq_true h
      rw [(settled_rebalance hrun).2.1, hleft.mem_iff] at hold
      exact hold.2 (hleft.moves_from_left hsettled hrun hs)

/-- A second group gets six of the twelve shards of the first. -/
theorem only_forced_moves_second_group :
    let servers : AList fun _ : Tgid => List GoString := [⟨2, []⟩].toAList
    ∃ c c' : ShardConfig ℤ, Reaches succeed anyStep makeShardConfig c ∧
      c.joinBalance MapOrder.ascending 145 servers = .ok (true, c') ∧
      (load c.shards 1 = 12 ∧ load c'.shards 2 = 6) ∧
      ∀ s, c'.shards s ≠ c.shards s → c'.shards s ∈ servers := by
  intro servers
  obtain ⟨c, hreach, c', hjoin, hloads⟩ := exists_reaches succeed anyStep (makeShardConfig (N := ℤ))
    [.joinBalance MapOrder.ascending 145 [⟨1, []⟩].toAList]
    (fun c => ∃ c' ∈ c.succeed (.joinBalance MapOrder.ascending 145 servers),
      load c.shards 1 = 12 ∧ load c'.shards 2 = 6) (by decide +kernel)
  rcases succeed_eq_some hjoin with ⟨_, _, _, hcall, hok⟩ | ⟨_, _, _, hcall, -⟩
  · cases hcall
    exact ⟨c, c', hreach, hok, hloads, (only_forced_moves hreach c' _ _).1 servers hok⟩
  · cases hcall

end ShardConfig

end DistributedLabs.ShardCfg
