import DistributedLabs.ShardController

/-!
# Where a shard is during a change

At any moment each shard is in one of three stages of the pending change: its old
group still serves it, its old group has frozen it and keeps the entries, or the
new group serves it. Every call of a controller takes a shard forward or leaves it
where it is, and a client's `Put` is accepted by nobody but the group that serves
the shard. Stale copies stay behind in groups that gave a shard up; they matter
only in that their keys are keys of the present entries as well.
-/

namespace DistributedLabs.ShardKv
open Kv RpcPrograms

/-- Every shard belongs to a group, and the group is listed. -/
def WellFormed (cfg : ShardConfig) : Prop := ∀ s, cfg.shards s ≠ 0 ∧
  (cfg.groups.lookup (cfg.shards s)).isSome

instance (cfg : ShardConfig) : Decidable (WellFormed cfg) := inferInstanceAs (Decidable (∀ _, _))

namespace World
variable (w : World)

/-- What the `Put`s that took effect add up to. -/
def truth : Entries := applyPuts w.puts

/-- The group takes operations on the shard and holds its entries. -/
structure Serves (s : Tshid) (g : Tgid) : Prop where
  accepts : (w.group g).Accepts s
  holds : ∀ key, key2Shard key = s → (w.group g).keyValue key = w.truth key

/-- Every key a group has a copy of has been written, and only strings of a kind were. -/
structure Known (text : GoString → Prop) : Prop where
  copies : ∀ g key, (w.group g).keyValue key ≠ none → w.truth key ≠ none
  strings : ∀ a ∈ w.puts, text a.key ∧ text a.value

/-- The stage of a shard while configuration `l` is published; `src` has the shard in it, and
`dst` is to get it. -/
inductive Stage (l : ℕ) (s : Tshid) (src dst : Tgid) : Prop
  | rest (serves : w.Serves s src) (fresh : ∀ g, (w.group g).Fresh s (l + 1))
      (away : ∀ g, w.Routed s g → g ≠ src → (w.group g).migratedShards s = true)
  | frozen (differ : src ≠ dst) (num : (w.group src).maxShardNum s = some (l + 1))
      (closed : (w.group src).frozenShards s = true) (here : (w.group src).migratedShards s = false)
      (holds : ∀ key, key2Shard key = s → (w.group src).keyValue key = w.truth key)
      (fresh : ∀ g, g ≠ src → (w.group g).Fresh s (l + 1))
      (away : ∀ g, w.Routed s g → g ≠ src → (w.group g).migratedShards s = true)
  | moved (differ : src ≠ dst) (num : (w.group src).maxShardNum s = some (l + 1))
      (num' : (w.group dst).maxShardNum s = some (l + 1)) (closed : (w.group src).TurnsAway s)
      (serves : w.Serves s dst)
      (fresh : ∀ g, g ≠ src → g ≠ dst → (w.group g).Fresh s (l + 1))
      (away : ∀ g, w.Routed s g → g ≠ src → g ≠ dst → (w.group g).migratedShards s = true)

end World

/-- The two worlds look the same from the shard. -/
structure SameShard (s : Tshid) (w w' : World) : Prop where
  frozenShards : ∀ g, (w'.group g).frozenShards s = (w.group g).frozenShards s
  maxShardNum : ∀ g, (w'.group g).maxShardNum s = (w.group g).maxShardNum s
  migratedShards : ∀ g, (w'.group g).migratedShards s = (w.group g).migratedShards s
  keyValue : ∀ g key, key2Shard key = s → (w'.group g).keyValue key = (w.group g).keyValue key
  truth : ∀ key, key2Shard key = s → w'.truth key = w.truth key
  routed : ∀ g, w'.Routed s g → w.Routed s g

namespace SameShard
variable {s : Tshid} {w w' : World} {l : ℕ} {src dst g : Tgid}

theorem serves (h : SameShard s w w') (hs : w.Serves s g) : w'.Serves s g where
  accepts := ⟨(h.migratedShards g).trans hs.accepts.1, (h.frozenShards g).trans hs.accepts.2⟩
  holds key hkey := by rw [h.keyValue g key hkey, h.truth key hkey, hs.holds key hkey]

theorem fresh (h : SameShard s w w') {num : ℕ} (hg : (w.group g).Fresh s num) :
    (w'.group g).Fresh s num := by
  unfold KVServer.Fresh
  rw [h.maxShardNum g]
  exact hg

theorem turnsAway (h : SameShard s w w') (hg : (w.group g).TurnsAway s) :
    (w'.group g).TurnsAway s := by
  unfold KVServer.TurnsAway
  rw [h.migratedShards g, h.frozenShards g]
  exact hg

theorem stage (h : SameShard s w w') (hs : w.Stage l s src dst) : w'.Stage l s src dst := by
  cases hs with
  | rest serves fresh away =>
    refine .rest (h.serves serves) (fun g => h.fresh (fresh g)) fun g hr hg => ?_
    rw [h.migratedShards g]
    exact away g (h.routed g hr) hg
  | frozen differ num closed here holds fresh away =>
    refine .frozen differ ((h.maxShardNum src).trans num) ((h.frozenShards src).trans closed)
      ((h.migratedShards src).trans here) (fun key hkey => ?_) (fun g hg => h.fresh (fresh g hg))
      fun g hr hg => ?_
    · rw [h.keyValue src key hkey, h.truth key hkey, holds key hkey]
    · rw [h.migratedShards g]
      exact away g (h.routed g hr) hg
  | moved differ num num' closed serves fresh away =>
    refine .moved differ ((h.maxShardNum src).trans num) ((h.maxShardNum dst).trans num')
      (h.turnsAway closed) (h.serves serves) (fun g hg hg' => h.fresh (fresh g hg hg'))
      fun g hr hg hg' => ?_
    rw [h.migratedShards g]
    exact away g (h.routed g hr) hg hg'

end SameShard

/-- A change of one group that the shard does not see. -/
theorem sameShard_setGroup {w : World} {gid : Tgid} {kv : KVServer} {s : Tshid}
    (hfrozen : kv.frozenShards s = (w.group gid).frozenShards s)
    (hnum : kv.maxShardNum s = (w.group gid).maxShardNum s)
    (hmigrated : kv.migratedShards s = (w.group gid).migratedShards s)
    (hkv : ∀ key, key2Shard key = s → kv.keyValue key = (w.group gid).keyValue key) :
    SameShard s w (w.setGroup gid kv) := by
  have hgroup : ∀ g, (w.setGroup gid kv).group g = if g = gid then kv else w.group g := by
    intro g
    simp [World.setGroup, Function.update_apply]
  constructor
  case truth => exact fun key _ => rfl
  case routed => exact fun g hr => hr
  all_goals
    intro g
    rw [hgroup]
    split_ifs with hg
    · subst hg
      assumption
    · first | rfl | exact fun _ _ => rfl

section Clients
variable {w : World} {gid : Tgid} {a : PutArgs GoString GoString}

theorem clientPut_of_turnsAway (h : (w.group gid).TurnsAway (key2Shard a.key)) :
    w.clientPut gid a = w := by
  simp [World.clientPut, KVServer.put_of_turnsAway a h, World.setGroup]

/-- The world after a `Put` that took effect. -/
def World.written (w : World) (gid : Tgid) (a : PutArgs GoString GoString) : World :=
  { w.setGroup gid { w.group gid with keyValue := (doPut (w.group gid).keyValue a).1 } with
    puts := w.puts ++ [a] }

theorem clientPut_of_accepts (h : (w.group gid).Accepts (key2Shard a.key)) :
    w.clientPut gid a = w ∨
      (doPut (w.group gid).keyValue a).2.err = .ok ∧ w.clientPut gid a = w.written gid a := by
  by_cases hok : (doPut (w.group gid).keyValue a).2.err = .ok
  · right
    refine ⟨hok, ?_⟩
    simp [World.clientPut, KVServer.put_of_accepts a h, hok, World.written]
  · left
    have hkv := (doPut_of_not_ok hok).2
    simp [World.clientPut, KVServer.put_of_accepts a h, hok, hkv, World.setGroup]

@[simp] theorem truth_written : (w.written gid a).truth = (doPut w.truth a).1 :=
  applyPuts_append _ _

theorem group_written (g : Tgid) : (w.written gid a).group g =
    if g = gid then { w.group gid with keyValue := (doPut (w.group gid).keyValue a).1 }
    else w.group g := by
  simp [World.written, World.setGroup, Function.update_apply]

@[simp] theorem frozenShards_written (g : Tgid) :
    ((w.written gid a).group g).frozenShards = (w.group g).frozenShards := by
  rw [group_written]
  split_ifs with h <;> simp [h]

@[simp] theorem maxShardNum_written (g : Tgid) :
    ((w.written gid a).group g).maxShardNum = (w.group g).maxShardNum := by
  rw [group_written]
  split_ifs with h <;> simp [h]

@[simp] theorem migratedShards_written (g : Tgid) :
    ((w.written gid a).group g).migratedShards = (w.group g).migratedShards := by
  rw [group_written]
  split_ifs with h <;> simp [h]

theorem keyValue_written (g : Tgid) : ((w.written gid a).group g).keyValue =
    if g = gid then (doPut (w.group gid).keyValue a).1 else (w.group g).keyValue := by
  rw [group_written]
  split_ifs <;> rfl

@[simp] theorem routed_written (s : Tshid) (g : Tgid) :
    (w.written gid a).Routed s g ↔ w.Routed s g := Iff.rfl

/-- A `Put` is seen by its own shard only. -/
theorem sameShard_written {s : Tshid} (hs : s ≠ key2Shard a.key) :
    SameShard s w (w.written gid a) := by
  have hne : ∀ key, key2Shard key = s → key ≠ a.key := by
    rintro key rfl rfl
    exact hs rfl
  refine ⟨fun g => by simp, fun g => by simp, fun g => by simp, fun g key hkey => ?_,
    fun key hkey => ?_, fun g hr => hr⟩
  · rw [keyValue_written]
    split_ifs with hg
    · rw [hg]
      exact doPut_of_ne _ a (hne key hkey)
    · rfl
  · rw [truth_written]
    exact doPut_of_ne _ a (hne key hkey)

/-- The group that serves the shard still holds its entries after a `Put`. -/
theorem World.Serves.written (h : w.Serves (key2Shard a.key) gid) :
    (w.written gid a).Serves (key2Shard a.key) gid := by
  refine ⟨by simpa [KVServer.Accepts] using h.accepts, fun key hkey => ?_⟩
  rw [keyValue_written, if_pos rfl, truth_written]
  rcases eq_or_ne key a.key with rfl | hne
  · exact (doPut_congr (h.holds a.key rfl)).2
  · rw [doPut_of_ne _ a hne, doPut_of_ne _ a hne]
    exact h.holds key hkey

/-- A `Put` that took effect at the group that serves the shard leaves an entry. -/
theorem World.Known.written {text : GoString → Prop} (hk : w.Known text)
    (h : w.Serves (key2Shard a.key) gid) (hok : (doPut (w.group gid).keyValue a).2.err = .ok)
    (ha : text a.key ∧ text a.value) : (w.written gid a).Known text := by
  refine ⟨fun g key hkey => ?_, List.forall_mem_append.mpr ⟨hk.strings, by simpa using ha⟩⟩
  rw [truth_written]
  rcases eq_or_ne key a.key with rfl | hne
  · have hsame := doPut_congr (h.holds a.key rfl)
    rw [hsame.1] at hok
    rw [(doPut_of_ok hok).2]
    simp
  · rw [doPut_of_ne _ a hne]
    apply hk.copies g key
    rw [keyValue_written] at hkey
    split_ifs at hkey with hg
    · rw [hg]
      rwa [doPut_of_ne _ a hne] at hkey
    · exact hkey

/-- Only the group that serves a shard takes operations of clients on it. -/
theorem World.Stage.serves {l : ℕ} {s : Tshid} {src dst : Tgid} (h : w.Stage l s src dst)
    (hr : w.Routed s gid) (ha : (w.group gid).Accepts s) : w.Serves s gid := by
  have hclosed := ha.not_turnsAway
  cases h with
  | rest serves fresh away =>
    rcases eq_or_ne gid src with rfl | hg
    · exact serves
    · exact absurd (Or.inl (away gid hr hg)) hclosed
  | frozen differ num closed here holds fresh away =>
    rcases eq_or_ne gid src with rfl | hg
    · exact absurd (Or.inr closed) hclosed
    · exact absurd (Or.inl (away gid hr hg)) hclosed
  | moved differ num num' closed serves fresh away =>
    rcases eq_or_ne gid src with rfl | hg
    · exact absurd closed hclosed
    · rcases eq_or_ne gid dst with rfl | hg'
      · exact serves
      · exact absurd (Or.inl (away gid hr hg hg')) hclosed

theorem World.Stage.written {l : ℕ} {s : Tshid} {src dst : Tgid} (h : w.Stage l s src dst)
    (hr : w.Routed (key2Shard a.key) gid) (ha : (w.group gid).Accepts (key2Shard a.key)) :
    (w.written gid a).Stage l s src dst := by
  rcases eq_or_ne s (key2Shard a.key) with rfl | hs
  case inr => exact (sameShard_written hs).stage h
  have hclosed := ha.not_turnsAway
  have hfresh : ∀ g num, (w.group g).Fresh (key2Shard a.key) num →
      ((w.written gid a).group g).Fresh (key2Shard a.key) num := by
    intro g num hg
    simpa [KVServer.Fresh] using hg
  have hserved := (h.serves hr ha).written
  cases h with
  | rest serves fresh away =>
    obtain rfl : gid = src := by
      by_contra hg
      exact hclosed (Or.inl (away gid hr hg))
    exact .rest hserved (fun g => hfresh g _ (fresh g)) (by simpa using away)
  | frozen differ num closed here holds fresh away =>
    rcases eq_or_ne gid src with rfl | hg
    · exact absurd (Or.inr closed) hclosed
    · exact absurd (Or.inl (away gid hr hg)) hclosed
  | moved differ num num' closed serves fresh away =>
    have hsrc : gid ≠ src := by
      rintro rfl
      exact hclosed closed
    obtain rfl : gid = dst := by
      by_contra hg
      exact hclosed (Or.inl (away gid hr hsrc hg))
    exact .moved differ (by simpa using num) (by simpa using num')
      (by simpa [KVServer.TurnsAway] using closed) hserved
      (fun g hg hg' => hfresh g _ (fresh g hg hg')) (by simpa using away)

end Clients

/-- The entries of a shard as the `Put`s left them. -/
def World.slice (w : World) (s : Tshid) : Entries := fun key =>
  if key2Shard key = s then w.truth key else none

theorem World.Known.slice {text : GoString → Prop} {w : World} (hk : w.Known text) (s : Tshid) :
    SpelledIn text (w.slice s) := by
  refine (spelledIn_applyPuts hk.strings).of_subset fun key e he => ?_
  unfold World.slice at he
  split_ifs at he
  exact he

/-- A call concerning one shard: it stays in some stage and the others see nothing. -/
structure Advance (text : GoString → Prop) (l : ℕ) (s : Tshid) (src dst : Tgid) (w w' : World) :
    Prop where
  stage : w'.Stage l s src dst
  others : ∀ s', s' ≠ s → SameShard s' w w'
  known : w'.Known text
  ctl : w'.ctl = w.ctl
  truth : w'.truth = w.truth

section Calls
variable {B : Type} {json : Json B} {text : GoString → Prop} {w : World} {l : ℕ} {s : Tshid}
  {src dst : Tgid}

@[simp] theorem setGroup_self (w : World) (g : Tgid) : w.setGroup g (w.group g) = w := by
  simp [World.setGroup]

@[simp] theorem group_setGroup (w : World) (g : Tgid) (kv : KVServer) :
    (w.setGroup g kv).group g = kv := Function.update_self _ _ _

@[simp] theorem truth_setGroup (w : World) (g : Tgid) (kv : KVServer) :
    (w.setGroup g kv).truth = w.truth := rfl

theorem group_setGroup_of_ne (w : World) {g gid : Tgid} (kv : KVServer) (h : g ≠ gid) :
    (w.setGroup gid kv).group g = w.group g := Function.update_of_ne h _ _

theorem Advance.refl (hk : w.Known text) (h : w.Stage l s src dst) : Advance text l s src dst w w :=
  ⟨h, fun _ _ => ⟨fun _ => rfl, fun _ => rfl, fun _ => rfl, fun _ _ _ => rfl, fun _ _ => rfl,
    fun _ hr => hr⟩, hk, rfl, rfl⟩

theorem World.Known.setGroup (hk : w.Known text) {g : Tgid} {kv : KVServer}
    (h : ∀ key, kv.keyValue key ≠ none → w.truth key ≠ none) : (w.setGroup g kv).Known text := by
  refine ⟨fun g' key hkey => ?_, hk.strings⟩
  rcases eq_or_ne g' g with rfl | hg
  · rw [group_setGroup] at hkey
    exact h key hkey
  · rw [group_setGroup_of_ne w kv hg] at hkey
    exact hk.copies g' key hkey

/-- A freeze stops the old group; what it hands out is the shard, unless the shard has been
installed already. -/
theorem World.Stage.freezeShard (hrt : json.RoundTrips text) (hk : w.Known text)
    (h : w.Stage l s src dst) (hne : src ≠ dst) :
    Advance text l s src dst w (w.setGroup src ((w.group src).doFreezeShard json ⟨s, l + 1⟩).1) ∧
    (((w.group src).doFreezeShard json ⟨s, l + 1⟩).1).maxShardNum s = some (l + 1) ∧
    ((w.group dst).maxShardNum s = some (l + 1) ∨
      ((w.group src).doFreezeShard json ⟨s, l + 1⟩).2.state.bind json.unmarshal =
        some (w.slice s)) := by
  have hcollect : (∀ key, key2Shard key = s → (w.group src).keyValue key = w.truth key) →
      (w.group src).collect s = w.slice s := by
    intro hholds
    funext key
    unfold KVServer.collect World.slice
    split_ifs with hkey
    · exact hholds key hkey
    · rfl
  have h₀ := h
  cases h with
  | rest serves fresh away =>
    have hfreeze := KVServer.doFreezeShard_of_fresh json ⟨s, l + 1⟩ (fresh src)
    rw [hfreeze]
    refine ⟨⟨?_, fun s' hs => ?_, hk.setGroup fun key => hk.copies src key, rfl, rfl⟩, ?_, Or.inr ?_⟩
    · refine .frozen hne ?_ ?_ ?_ ?_ (fun g hg => ?_) fun g hr hg => ?_
      · simp [KVServer.freeze]
      · simp [KVServer.freeze]
      · simpa [KVServer.freeze] using serves.accepts.1
      · simpa [KVServer.freeze] using serves.holds
      · rw [group_setGroup_of_ne w _ hg]
        exact fresh g
      · rw [group_setGroup_of_ne w _ hg]
        exact away g hr hg
    · apply sameShard_setGroup <;> simp [KVServer.freeze, hs]
    · simp [KVServer.freeze]
    · simp [KVServer.freeze, hcollect serves.holds, hrt.marshal _ (hk.slice s)]
  | frozen differ num closed here holds fresh away =>
    have hsame := KVServer.doFreezeShard_of_eq json ⟨s, l + 1⟩ num
    rw [hsame, setGroup_self]
    refine ⟨.refl hk h₀, num, Or.inr ?_⟩
    simp [here, hcollect holds, hrt.marshal _ (hk.slice s)]
  | moved differ num num' closed serves fresh away =>
    have hsame := KVServer.doFreezeShard_of_eq json ⟨s, l + 1⟩ num
    rw [hsame, setGroup_self]
    exact ⟨.refl hk h₀, num, Or.inl num'⟩

theorem World.Stage.installShard (hk : w.Known text) (h : w.Stage l s src dst)
    (hnum : (w.group src).maxShardNum s = some (l + 1)) {state : Option B}
    (hstate : (w.group dst).maxShardNum s = some (l + 1) ∨
      state.bind json.unmarshal = some (w.slice s)) :
    Advance text l s src dst w (w.setGroup dst ((w.group dst).doInstallShard json ⟨s, state, l + 1⟩).1) ∧
    (((w.group dst).doInstallShard json ⟨s, state, l + 1⟩).1).maxShardNum s = some (l + 1) := by
  have h₀ := h
  cases h with
  | rest serves fresh away => exact absurd (fresh src _ hnum) (Nat.lt_irrefl _)
  | moved differ num num' closed serves fresh away =>
    rw [KVServer.doInstallShard_of_eq json _ num', setGroup_self]
    exact ⟨.refl hk h₀, num'⟩
  | frozen differ num closed here holds fresh away =>
    have hdst := fresh dst differ.symm
    have hread : state.bind json.unmarshal = some (w.slice s) :=
      hstate.resolve_left fun hnum' => absurd (hdst _ hnum') (Nat.lt_irrefl _)
    have hinstall := KVServer.doInstallShard_of_fresh json ⟨s, state, l + 1⟩ hdst
    rw [hinstall, KVServer.install]
    simp only [hread]
    have hholds : ∀ key, key2Shard key = s →
        (w.slice s key).or ((w.group dst).keyValue key) = w.truth key := by
      intro key hkey
      simp only [World.slice, hkey, if_true]
      cases ht : w.truth key with
      | some e => rfl
      | none =>
        by_contra hcopy
        exact hk.copies dst key hcopy ht
    refine ⟨⟨?_, fun s' hs => ?_, hk.setGroup fun key hkey => ?_, rfl, rfl⟩, ?_⟩
    · refine .moved differ ?_ ?_ ?_ ⟨⟨?_, ?_⟩, ?_⟩ (fun g hg hg' => ?_) fun g hr hg hg' => ?_
      · rw [group_setGroup_of_ne w _ differ]
        exact num
      · simp
      · rw [group_setGroup_of_ne w _ differ]
        exact Or.inr closed
      · simp
      · simp
      · intro key hkey
        rw [group_setGroup]
        exact hholds key hkey
      · rw [group_setGroup_of_ne w _ hg']
        exact fresh g hg
      · rw [group_setGroup_of_ne w _ hg']
        exact away g hr hg
    · apply sameShard_setGroup
      case hkv =>
        intro key hkey
        simp [World.slice, hkey, hs]
      all_goals simp [hs]
    · by_cases hs : key2Shard key = s
      · rwa [← hholds key hs]
      · apply hk.copies dst key
        simpa [World.slice, hs] using hkey
    · simp

/-- A delete after the install marks the shard as gone from the old group. -/
theorem World.Stage.deleteShard (hk : w.Known text) (h : w.Stage l s src dst)
    (hnum : (w.group dst).maxShardNum s = some (l + 1)) (hne : src ≠ dst) :
    Advance text l s src dst w (w.setGroup src ((w.group src).doDeleteShard ⟨s, l + 1⟩).1) ∧
    (((w.group src).doDeleteShard ⟨s, l + 1⟩).1).maxShardNum s = some (l + 1) ∧
    (((w.group src).doDeleteShard ⟨s, l + 1⟩).1).migratedShards s = true := by
  cases h with
  | rest serves fresh away => exact absurd (fresh dst _ hnum) (Nat.lt_irrefl _)
  | frozen differ num closed here holds fresh away =>
    exact absurd (fresh dst differ.symm _ hnum) (Nat.lt_irrefl _)
  | moved differ num num' closed serves fresh away =>
    have hdelete := KVServer.doDeleteShard_of_eq ⟨s, l + 1⟩ num
    rw [hdelete]
    refine ⟨⟨?_, fun s' hs => ?_, hk.setGroup fun key => hk.copies src key, rfl, rfl⟩, num, by simp⟩
    · refine .moved differ ?_ ?_ ?_ ⟨?_, ?_⟩ (fun g hg hg' => ?_) fun g hr hg hg' => ?_
      · simpa using num
      · rw [group_setGroup_of_ne w _ hne.symm]
        exact num'
      · simp [KVServer.TurnsAway]
      · rw [group_setGroup_of_ne w _ hne.symm]
        exact serves.accepts
      · rw [group_setGroup_of_ne w _ hne.symm]
        exact serves.holds
      · rw [group_setGroup_of_ne w _ hg]
        exact fresh g hg hg'
      · rw [group_setGroup_of_ne w _ hg]
        exact away g hr hg hg'
    · apply sameShard_setGroup <;> simp [hs]

end Calls

end DistributedLabs.ShardKv
