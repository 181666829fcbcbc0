import DistributedLabs.ShardCfg

/-!
# Balancing the shards

The scan over the sorted group ids finds a group with the most and one with the fewest shards, in
whatever order the ids were collected. So every round of the last loop of `Rebalance` moves a shard
between two groups that differ by at least two, which lowers the sum of the squares of the
loads, and the loop ends when the groups are balanced.
-/

namespace DistributedLabs.ShardCfg
open LoadBalancing
open ShardKv (GoString Tgid Tshid)

namespace ShardConfig
variable {N : Type} {c : ShardConfig N} {keys keys' : List Tgid} {order order' : MapOrder}

theorem foldl_counts (l : List Tgid) (counts : Tgid → ℤ) (g : Tgid) :
    l.foldl (fun counts g => Function.update counts g (counts g + 1)) counts g =
      counts g + l.count g := by
  induction l generalizing counts with
  | nil => simp
  | cons x l ih =>
    rw [List.foldl_cons, ih]
    rcases eq_or_ne x g with rfl | hne
    · simp [add_assoc, add_comm (1 : ℤ)]
    · simp [hne, hne.symm]

theorem counts_eq (c : ShardConfig N) (g : Tgid) : c.counts g = load c.shards g := by
  have hload : load c.shards g = (List.ofFn c.shards).count g := by
    rw [← Multiset.coe_count, ← Fin.univ_val_map, Multiset.count_map, load]
    simp only [eq_comm]
    rfl
  rw [counts, foldl_counts, hload, zero_add]

namespace Extremes
variable {counts : Tgid → ℤ} {l : List Tgid} {e : Extremes} {g : Tgid}

/-- What the loop has found of the fewest when it has come to the groups of `l`. -/
structure SeenFewest (counts : Tgid → ℤ) (l : List Tgid) (e : Extremes) : Prop where
  le : ∀ g ∈ l, e.ln ≤ counts g
  found : e.lg ∈ l ∧ e.ln = counts e.lg ∨ l = [] ∧ e.ln = 257

/-- And of the most. -/
structure SeenMost (counts : Tgid → ℤ) (l : List Tgid) (e : Extremes) : Prop where
  ge : ∀ g ∈ l, counts g ≤ e.mn
  found : e.mg ∈ l ∧ e.mn = counts e.mg ∨ l = [] ∧ e.mn = -1

theorem SeenFewest.lower (h : SeenFewest counts l e) (hlt : counts g < 257) :
    SeenFewest counts (l ++ [g]) (e.lower counts g) := by
  unfold Extremes.lower
  split_ifs with hless
  · refine ⟨?_, Or.inl ⟨by simp, rfl⟩⟩
    rw [List.forall_mem_append, List.forall_mem_singleton]
    exact ⟨fun x hx => hless.le.trans (h.le x hx), le_rfl⟩
  · refine ⟨?_, Or.inl ?_⟩
    · rw [List.forall_mem_append, List.forall_mem_singleton]
      exact ⟨h.le, not_lt.mp hless⟩
    · rcases h.found with ⟨hmem, heq⟩ | ⟨-, hinit⟩
      · exact ⟨List.mem_append_left _ hmem, heq⟩
      · omega

theorem SeenMost.raise (h : SeenMost counts l e) (hnonneg : 0 ≤ counts g) :
    SeenMost counts (l ++ [g]) (e.raise counts g) := by
  unfold Extremes.raise
  split_ifs with hmore
  · refine ⟨?_, Or.inl ⟨by simp, rfl⟩⟩
    rw [List.forall_mem_append, List.forall_mem_singleton]
    exact ⟨fun x hx => (h.ge x hx).trans hmore.le, le_rfl⟩
  · refine ⟨?_, Or.inl ?_⟩
    · rw [List.forall_mem_append, List.forall_mem_singleton]
      exact ⟨h.ge, not_lt.mp hmore⟩
    · rcases h.found with ⟨hmem, heq⟩ | ⟨-, hinit⟩
      · exact ⟨List.mem_append_left _ hmem, heq⟩
      · omega

/-- Each comparison leaves the result of the other alone. -/
theorem SeenFewest.raise (h : SeenFewest counts l e) : SeenFewest counts l (e.raise counts g) := by
  unfold Extremes.raise
  split_ifs
  · exact ⟨h.le, h.found⟩
  · exact h

theorem SeenMost.lower (h : SeenMost counts l e) : SeenMost counts l (e.lower counts g) := by
  unfold Extremes.lower
  split_ifs
  · exact ⟨h.ge, h.found⟩
  · exact h

theorem seen_foldl (hnonneg : ∀ g, 0 ≤ counts g) (hlt : ∀ g, counts g < 257) (l : List Tgid) :
    SeenFewest counts l (l.foldl (see counts) ⟨-1, -1, -1, 257⟩) ∧
      SeenMost counts l (l.foldl (see counts) ⟨-1, -1, -1, 257⟩) := by
  induction l using List.reverseRecOn with
  | nil => exact ⟨⟨nofun, Or.inr ⟨rfl, rfl⟩⟩, ⟨nofun, Or.inr ⟨rfl, rfl⟩⟩⟩
  | append_singleton l g ih =>
    rw [List.foldl_append]
    exact ⟨(ih.1.lower (hlt g)).raise, ih.2.lower.raise (hnonneg g)⟩

end Extremes

/-- The keys of the map, each once. -/
structure Lists (groups : Groups) (keys : List Tgid) : Prop where
  nodup : keys.Nodup
  mem_iff : ∀ g, g ∈ keys ↔ g ∈ groups

theorem lists_keys (order : MapOrder) (loop : ℕ) (groups : Groups) :
    Lists groups (order.keys loop groups) :=
  ⟨order.nodup loop groups, order.mem_iff loop groups⟩

/-- The order in which the ids are collected is lost by sorting them. -/
theorem analyze_congr (h : Lists c.groups keys) (h' : Lists c.groups keys') :
    c.analyze keys = c.analyze keys' := by
  have hperm : keys.Perm keys' := by
    rw [List.perm_ext_iff_of_nodup h.nodup h'.nodup]
    exact fun g => (h.mem_iff g).trans (h'.mem_iff g).symm
  rw [analyze, analyze, insertionSort_congr hperm]

theorem analyze_spec (h : Lists c.groups keys) (hne : c.groups.keys.Nonempty) :
    Most c.groups.keys c.shards (c.analyze keys).mg ∧
      (c.analyze keys).mn = load c.shards (c.analyze keys).mg ∧
      Fewest c.groups.keys c.shards (c.analyze keys).lg ∧
      (c.analyze keys).ln = load c.shards (c.analyze keys).lg := by
  have hlt : ∀ g, c.counts g < 257 := by
    intro g
    have hcard : load c.shards g ≤ 12 := Finset.card_le_univ _
    rw [counts_eq]
    omega
  have hnonneg : ∀ g, 0 ≤ c.counts g := by
    intro g
    rw [counts_eq]
    exact Int.natCast_nonneg _
  obtain ⟨hfewest, hmost⟩ := Extremes.seen_foldl hnonneg hlt (keys.insertionSort (· ≤ ·))
  rw [← analyze] at hfewest hmost
  have hmem : ∀ g, g ∈ keys.insertionSort (· ≤ ·) ↔ g ∈ c.groups.keys := by
    intro g
    rw [List.mem_insertionSort, h.mem_iff, Finmap.mem_keys]
  obtain ⟨g, hg⟩ := hne
  have hnil : keys.insertionSort (· ≤ ·) ≠ [] := List.ne_nil_of_mem ((hmem g).mpr hg)
  have hmg := hmost.found.resolve_right fun hnone => hnil hnone.1
  have hlg := hfewest.found.resolve_right fun hnone => hnil hnone.1
  have hmn := hmg.2
  have hln := hlg.2
  rw [counts_eq] at hmn hln
  refine ⟨⟨(hmem _).mp hmg.1, fun x hx => ?_⟩, hmn, ⟨(hmem _).mp hlg.1, fun x hx => ?_⟩, hln⟩
  · have hle := hmost.ge x ((hmem x).mpr hx)
    rw [counts_eq] at hle
    omega
  · have hle := hfewest.le x ((hmem x).mpr hx)
    rw [counts_eq] at hle
    omega

theorem moveOne_congr (h : Lists c.groups keys) (h' : Lists c.groups keys') :
    c.moveOne keys = c.moveOne keys' := by
  rw [moveOne, moveOne, analyze_congr h h']

theorem balance_congr (order order' : MapOrder) (loop loop' fuel : ℕ) (c : ShardConfig N) :
    c.balance order loop fuel = c.balance order' loop' fuel := by
  induction fuel generalizing c loop loop' with
  | zero => rfl
  | succ fuel ih =>
    rw [balance, balance, moveOne_congr (lists_keys order loop _) (lists_keys order' loop' _)]
    cases c.moveOne (order'.keys loop' c.groups) with
    | none => rfl
    | some c' => exact ih (loop + 1) (loop' + 1) c'

theorem assignUnassigned_congr (order order' : MapOrder) (c : ShardConfig N) :
    c.assignUnassigned order = c.assignUnassigned order' := by
  have hshard : c.assignShard order = c.assignShard order' := by
    funext now s
    rw [assignShard, assignShard, least, least,
      analyze_congr (lists_keys order s now.groups) (lists_keys order' s now.groups)]
  rw [assignUnassigned, assignUnassigned, hshard]

@[simp] theorem give_shards (s : Tshid) (g : Tgid) :
    (c.give s g).shards = Function.update c.shards s g := rfl

theorem forall_give {P : Tgid → Prop} {s : Tshid} {g : Tgid} (h : ∀ t, P (c.shards t)) (hg : P g)
    (t : Tshid) : P ((c.give s g).shards t) := by
  rw [give_shards, Function.update_apply]
  split_ifs
  · exact hg
  · exact h t

/-- What the loop has done when it has come to the shards of `l`. -/
structure Assigned (c : ShardConfig N) (l : List Tshid) (now : ShardConfig N) : Prop where
  num : now.num = c.num
  groups : now.groups = c.groups
  seen : ∀ s ∈ l, now.shards s ∈ c.groups
  unseen : ∀ s ∉ l, now.shards s = c.shards s
  kept : ∀ s, c.shards s ∈ c.groups → now.shards s = c.shards s
  balanced : IsBalanced c.groups.keys c.shards → IsBalanced c.groups.keys now.shards

theorem Assigned.assignShard {l : List Tshid} {now : ShardConfig N} {s : Tshid} (h : Assigned c l now)
    (hne : c.groups.keys.Nonempty) (hs : s ∉ l) :
    Assigned c (l ++ [s]) (c.assignShard order now s) := by
  unfold ShardConfig.assignShard
  split_ifs with howned
  · refine ⟨h.num, h.groups, ?_, fun t ht => ?_, h.kept, h.balanced⟩
    · rw [List.forall_mem_append, List.forall_mem_singleton, h.kept s howned]
      exact ⟨h.seen, howned⟩
    · exact h.unseen t fun hl => ht (List.mem_append_left _ hl)
  · have hnow : now.groups.keys.Nonempty := h.groups ▸ hne
    obtain ⟨-, -, hfewest, -⟩ := analyze_spec (lists_keys order s now.groups) hnow
    have hunassigned := h.unseen s hs
    rw [← least, h.groups] at hfewest
    rw [h.groups]
    refine ⟨h.num, h.groups, fun t ht => ?_, fun t ht => ?_, fun t ht => ?_, fun hbalanced => ?_⟩
    · rcases eq_or_ne t s with rfl | hts
      · rw [give_shards, Function.update_self, ← Finmap.mem_keys]
        exact hfewest.mem
      · rw [give_shards, Function.update_of_ne hts]
        apply h.seen
        simpa [hts] using ht
    · have hts : t ≠ s := fun heq => ht (by simp [heq])
      rw [give_shards, Function.update_of_ne hts]
      exact h.unseen t fun hl => ht (List.mem_append_left _ hl)
    · have hts : t ≠ s := fun heq => howned (heq ▸ ht)
      rw [give_shards, Function.update_of_ne hts]
      exact h.kept t ht
    · apply (h.balanced hbalanced).give _ hfewest
      rw [hunassigned, Finmap.mem_keys]
      exact howned

theorem assigned_foldl (order : MapOrder) (hne : c.groups.keys.Nonempty) {l : List Tshid}
    (hl : l.Nodup) : Assigned c l (l.foldl (c.assignShard order) c) := by
  induction l using List.reverseRecOn with
  | nil => exact ⟨rfl, rfl, nofun, fun _ _ => rfl, fun _ _ => rfl, id⟩
  | append_singleton l s ih =>
    rw [List.nodup_append] at hl
    rw [List.foldl_append]
    exact (ih hl.1).assignShard hne fun hs => hl.2.2 s hs s List.mem_cons_self rfl

theorem assigned_assignUnassigned (order : MapOrder) (hne : c.groups.keys.Nonempty) :
    Assigned c (List.finRange 12) (c.assignUnassigned order) :=
  assigned_foldl order hne (List.nodup_finRange 12)

theorem moveOne_cases (h : Lists c.groups keys) (hne : c.groups.keys.Nonempty) :
    IsBalanced c.groups.keys c.shards ∧ c.moveOne keys = none ∨
      ∃ s g, Most c.groups.keys c.shards (c.shards s) ∧ Fewest c.groups.keys c.shards g ∧
        load c.shards g + 2 ≤ load c.shards (c.shards s) ∧ c.moveOne keys = some (c.give s g) := by
  obtain ⟨hmost, hmn, hfewest, hln⟩ := analyze_spec h hne
  simp only [moveOne, hmn, hln]
  split_ifs with hclose
  · exact Or.inl ⟨balanced_of_close hmost hfewest (by omega), rfl⟩
  · right
    obtain ⟨t, ht⟩ := load_pos_iff.mp (show 0 < load c.shards (c.analyze keys).mg by omega)
    cases hfind : (List.finRange 12).find? fun s => c.shards s = (c.analyze keys).mg with
    | none =>
      have hnot := List.find?_eq_none.mp hfind t (List.mem_finRange t)
      simp [ht] at hnot
    | some s =>
      have hs : c.shards s = (c.analyze keys).mg := by simpa using List.find?_some hfind
      refine ⟨s, _, hs ▸ hmost, hfewest, ?_, rfl⟩
      rw [hs]
      omega

/-- A balanced configuration is left as it is. -/
theorem balance_of_balanced (hne : c.groups.keys.Nonempty) (h : IsBalanced c.groups.keys c.shards)
    (order : MapOrder) (loop fuel : ℕ) : c.balance order loop (fuel + 1) = some c := by
  rcases moveOne_cases (lists_keys order loop c.groups) hne with
    ⟨-, hnone⟩ | ⟨s, g, hmost, hfewest, hgap, -⟩
  · rw [balance, hnone]
  · have hle := h (c.shards s) hmost.mem g hfewest.mem
    omega

/-- The property `J` is kept by every move that the loop can make among the groups. -/
def KeptByMoves (groups : Groups) (J : ShardConfig N → Prop) : Prop :=
  ∀ c s g, J c → Most groups.keys c.shards (c.shards s) → Fewest groups.keys c.shards g →
    load c.shards g + 2 ≤ load c.shards (c.shards s) → J (c.give s g)

theorem keptByMoves_true (groups : Groups) : KeptByMoves groups fun _ : ShardConfig N => True :=
  fun _ _ _ _ _ _ _ => trivial

/-- The loop ends in a balanced configuration, and keeps what every move keeps. -/
theorem exists_balance (order : MapOrder) {groups : Groups} (hne : groups.keys.Nonempty)
    {J : ShardConfig N → Prop} (hmove : KeptByMoves groups J) (hgroups : c.groups = groups) (hJ : J c) :
    ∃ c', (∀ loop fuel, imbalance groups.keys c.shards < fuel →
        c.balance order loop fuel = some c') ∧
      c'.num = c.num ∧ c'.groups = groups ∧ IsBalanced groups.keys c'.shards ∧ J c' := by
  induction hn : imbalance groups.keys c.shards using Nat.strongRecOn generalizing c with
  | ind n ih =>
    subst hgroups
    rcases moveOne_cases (lists_keys MapOrder.ascending 0 c.groups) hne with
      ⟨hbalanced, -⟩ | ⟨s, g, hmost, hfewest, hgap, hmoved⟩
    · refine ⟨c, fun loop fuel hfuel => ?_, rfl, rfl, hbalanced, hJ⟩
      obtain ⟨fuel, rfl⟩ := Nat.exists_eq_add_one_of_ne_zero (Nat.ne_zero_of_lt hfuel)
      exact balance_of_balanced hne hbalanced order loop fuel
    · have hlt := imbalance_move hmost.mem hfewest.mem hgap
      obtain ⟨c', hrun, hnum, hgroups, hbalanced, hJ'⟩ :=
        ih _ (hn ▸ hlt) (c := c.give s g) rfl (hmove c s g hJ hmost hfewest hgap) rfl
      refine ⟨c', fun loop fuel hfuel => ?_, hnum, hgroups, hbalanced, hJ'⟩
      obtain ⟨fuel, rfl⟩ := Nat.exists_eq_add_one_of_ne_zero (Nat.ne_zero_of_lt hfuel)
      rw [balance, moveOne_congr (lists_keys order loop c.groups) (lists_keys _ 0 c.groups), hmoved]
      exact hrun (loop + 1) fuel (by rw [give_shards]; omega)

/-- More fuel does not change the result. -/
theorem balance_mono {c' : ShardConfig N} {loop fuel fuel' : ℕ} (h : c.balance order loop fuel = some c')
    (hle : fuel ≤ fuel') : c.balance order loop fuel' = some c' := by
  induction fuel generalizing c loop fuel' with
  | zero => cases h
  | succ fuel ih =>
    obtain ⟨fuel', rfl⟩ := Nat.exists_eq_add_of_le' (Nat.le_of_add_left_le hle)
    rw [balance] at h ⊢
    cases hmove : c.moveOne (order.keys loop c.groups) with
    | none =>
      rw [hmove] at h
      exact h
    | some c₁ =>
      rw [hmove] at h
      exact ih h (Nat.le_of_succ_le_succ hle)

theorem keys_nonempty_iff {groups : Groups} : groups.keys.Nonempty ↔ groups ≠ ∅ := by
  constructor
  · rintro hne rfl
    simp at hne
  · intro hne
    rw [Finset.nonempty_iff_ne_empty]
    intro hkeys
    apply hne
    apply Finmap.ext_lookup
    intro g
    rw [Finmap.lookup_empty, Finmap.lookup_eq_none, ← Finmap.mem_keys, hkeys]
    exact Finset.notMem_empty g

theorem rebalance_of_no_groups (h : c.groups = ∅) (order : MapOrder) (fuel : ℕ) :
    c.rebalance order fuel = some { c with shards := fun _ => 0 } := by
  rw [rebalance, h, if_pos (by simp)]

theorem rebalance_of_groups (h : c.groups.keys.Nonempty) (order : MapOrder) (fuel : ℕ) :
    c.rebalance order fuel = (c.assignUnassigned order).balance order 12 fuel := by
  rw [rebalance, if_neg (by have := h.card_pos; omega)]

/-- Only what `Rebalance` reads of the maps matters, not in which order. -/
theorem rebalance_congr (order order' : MapOrder) (fuel : ℕ) (c : ShardConfig N) :
    c.rebalance order fuel = c.rebalance order' fuel := by
  simp only [rebalance, assignUnassigned_congr order order', balance_congr order order' 12 12]

theorem rebalance_mono {c' : ShardConfig N} {fuel fuel' : ℕ} (h : c.rebalance order fuel = some c')
    (hle : fuel ≤ fuel') : c.rebalance order fuel' = some c' := by
  unfold rebalance at h ⊢
  split_ifs at h ⊢ with hcard
  · exact h
  · exact balance_mono h hle

/-- If there are groups, `Rebalance` ends, and it keeps what every move keeps after the first loop. -/
theorem exists_rebalance (hne : c.groups.keys.Nonempty) {J : ShardConfig N → Prop}
    (hmove : KeptByMoves c.groups J) (hJ : ∀ now, Assigned c (List.finRange 12) now → J now) :
    ∃ c', (∀ order fuel, 144 < fuel → c.rebalance order fuel = some c') ∧
      c'.num = c.num ∧ c'.groups = c.groups ∧ (∀ s, c'.shards s ∈ c.groups) ∧
      IsBalanced c.groups.keys c'.shards ∧ J c' := by
  have hassigned := assigned_assignUnassigned MapOrder.ascending hne
  have hall : ∀ s, (c.assignUnassigned MapOrder.ascending).shards s ∈ c.groups :=
    fun s => hassigned.seen s (List.mem_finRange s)
  have hkept : KeptByMoves c.groups fun now => (∀ s, now.shards s ∈ c.groups) ∧ J now := by
    rintro now s g ⟨hmem, hnow⟩ hmost hfewest hgap
    exact ⟨forall_give hmem (Finmap.mem_keys.mp hfewest.mem), hmove now s g hnow hmost hfewest hgap⟩
  obtain ⟨c', hrun, hnum, hgroups, hbalanced, hmem, hJ'⟩ :=
    exists_balance MapOrder.ascending hne hkept hassigned.groups ⟨hall, hJ _ hassigned⟩
  refine ⟨c', fun order fuel hfuel => ?_, hnum.trans hassigned.num, hgroups, hmem, hbalanced, hJ'⟩
  rw [rebalance_congr order MapOrder.ascending, rebalance_of_groups hne]
  apply hrun
  exact (imbalance_le fun s => Finmap.mem_keys.mpr (hall s)).trans_lt hfuel

/-- The same of a `Rebalance` that has ended. -/
theorem rebalance_keeps (hne : c.groups.keys.Nonempty) {J : ShardConfig N → Prop}
    (hmove : KeptByMoves c.groups J) (hJ : ∀ now, Assigned c (List.finRange 12) now → J now)
    {c' : ShardConfig N} {fuel : ℕ} (h : c.rebalance order fuel = some c') :
    c'.num = c.num ∧ c'.groups = c.groups ∧ (∀ s, c'.shards s ∈ c.groups) ∧
      IsBalanced c.groups.keys c'.shards ∧ J c' := by
  obtain ⟨c₀, hrun, hspec⟩ := exists_rebalance hne hmove hJ
  have hmax := rebalance_mono h (le_max_left fuel 145)
  rw [hrun order _ (le_max_right fuel 145)] at hmax
  cases hmax
  exact hspec

/-- Where every shard has an owner, the first loop does nothing. -/
theorem assignUnassigned_of_assigned (hne : c.groups.keys.Nonempty) (h : ∀ s, c.shards s ∈ c.groups)
    (order : MapOrder) : c.assignUnassigned order = c := by
  have hassigned := assigned_assignUnassigned order hne
  exact ShardConfig.ext hassigned.num (funext fun s => hassigned.kept s (h s)) hassigned.groups

/-- `Rebalance` ends in a balanced configuration, whatever the order of its loops over the map, and
leaves that one as it is. -/
theorem rebalance_balances (c : ShardConfig N) :
    ∃ c' : ShardConfig N, (∀ order fuel, 144 < fuel → c.rebalance order fuel = some c') ∧
      c'.num = c.num ∧ c'.groups = c.groups ∧ (c.groups = ∅ → ∀ s, c'.shards s = 0) ∧
      (c.groups ≠ ∅ → (∀ s, c'.shards s ∈ c.groups) ∧
        ∀ g ∈ c.groups, ∀ h ∈ c.groups, load c'.shards g ≤ load c'.shards h + 1) ∧
      ∀ order fuel, 144 < fuel → c'.rebalance order fuel = some c' := by
  rcases eq_or_ne c.groups ∅ with hempty | hgroups
  · refine ⟨{ c with shards := fun _ => 0 }, fun order fuel _ => rebalance_of_no_groups hempty order fuel,
      rfl, rfl, fun _ _ => rfl, fun hne => absurd hempty hne, fun order fuel _ => ?_⟩
    apply rebalance_of_no_groups
    exact hempty
  · have hne := keys_nonempty_iff.mpr hgroups
    obtain ⟨c', hrun, hnum, heq, hmem, hbalanced, -⟩ :=
      exists_rebalance hne (keptByMoves_true c.groups) fun _ _ => trivial
    refine ⟨c', hrun, hnum, heq, fun hempty => absurd hempty hgroups, fun _ => ⟨hmem, ?_⟩,
      fun order fuel hfuel => ?_⟩
    · simpa only [IsBalanced, Finmap.mem_keys] using hbalanced
    · rw [← heq] at hne hmem hbalanced
      rw [rebalance_of_groups hne, assignUnassigned_of_assigned hne hmem]
      obtain ⟨fuel, rfl⟩ := Nat.exists_eq_add_one_of_ne_zero (Nat.ne_zero_of_lt hfuel)
      exact balance_of_balanced hne hbalanced order 12 fuel

example :
    let c : ShardConfig ℤ := ⟨4, fun s => if s.val < 5 then 2 else 7, [⟨3, []⟩, ⟨1, []⟩, ⟨2, []⟩].toFinmap⟩
    (c.rebalance MapOrder.ascending 145).map (fun c' => List.ofFn c'.shards) =
      some [3, 2, 2, 2, 2, 1, 3, 1, 3, 1, 3, 1] := by
  decide +kernel

end ShardConfig

end DistributedLabs.ShardCfg
