import DistributedLabs.ShardGroupNumbers
import DistributedLabs.Utf8Replacement

/-!
# The entries of a shard on their way to another group

A freeze hands out the entries of a shard as JSON, and an install reads them back. Keys and
values are any bytes, but JSON strings are Unicode: `Marshal` replaces what is not
UTF-8. A shard arrives unchanged if and only if its keys and values are valid and neither the
freeze nor the install is a repetition that leaves the entries out.
-/

namespace DistributedLabs.ShardKv
open Kv Utf8
open Rsm (Any)

variable {B : Type}

/-- Entries whose strings have been replaced. Of keys that become equal one is kept. -/
structure Replaced (entries decoded : Entries) : Prop where
  source : ∀ key e, decoded key = some e → ∃ key₀ e₀, entries key₀ = some e₀ ∧
    replaceInvalid key₀ = key ∧ e = ⟨replaceInvalid e₀.value, e₀.version⟩
  kept : ∀ key₀ e₀, entries key₀ = some e₀ → decoded (replaceInvalid key₀) ≠ none

/-- The codec as it is documented. -/
structure Json.Documented (json : Json B) : Prop where
  marshal : ∀ entries, FiniteKeys entries →
    ∃ decoded, json.unmarshal (json.marshal entries) = some decoded ∧ Replaced entries decoded
  emptyObject : json.unmarshal json.emptyObject = some (emptyStore GoString GoString)

theorem Replaced.valid {entries decoded : Entries} (h : Replaced entries decoded) {key : GoString}
    {e : ValueEntry GoString} (he : decoded key = some e) : Valid key ∧ Valid e.value := by
  obtain ⟨key₀, e₀, -, rfl, rfl⟩ := h.source key e he
  exact ⟨valid_replaceInvalid key₀, valid_replaceInvalid e₀.value⟩

theorem Replaced.eq_of_valid {entries decoded : Entries} (h : Replaced entries decoded)
    (hvalid : ∀ key e, entries key = some e → Valid key ∧ Valid e.value) : decoded = entries := by
  have hsource : ∀ key e, decoded key = some e → entries key = some e := by
    intro key e he
    obtain ⟨key₀, e₀, he₀, rfl, rfl⟩ := h.source key e he
    obtain ⟨hkey, hvalue⟩ := hvalid key₀ e₀ he₀
    rw [replaceInvalid_eq_self_iff.mpr hkey, replaceInvalid_eq_self_iff.mpr hvalue, he₀]
  funext key
  cases hd : decoded key with
  | some e => exact (hsource key e hd).symm
  | none =>
    cases he : entries key with
    | none => rfl
    | some e =>
      have hkept := h.kept key e he
      rw [replaceInvalid_eq_self_iff.mpr (hvalid key e he).1] at hkept
      exact absurd hd hkept

theorem Json.Documented.roundTrips {json : Json B} (h : json.Documented) : json.RoundTrips Valid where
  marshal entries hentries := by
    obtain ⟨decoded, hdecoded, hreplaced⟩ := h.marshal entries hentries.finite
    rw [hdecoded, hreplaced.eq_of_valid hentries.strings]
  emptyObject := h.emptyObject

theorem exists_replaced (entries : Entries) : ∃ decoded, Replaced entries decoded := by
  classical
  refine ⟨fun key =>
    if h : ∃ p : GoString × ValueEntry GoString, entries p.1 = some p.2 ∧ replaceInvalid p.1 = key then
      some ⟨replaceInvalid h.choose.2.value, h.choose.2.version⟩ else none, ?_, ?_⟩
  · intro key e he
    split_ifs at he with h
    cases he
    exact ⟨h.choose.1, h.choose.2, h.choose_spec.1, h.choose_spec.2, rfl⟩
  · intro key₀ e₀ he₀
    rw [dif_pos ⟨(key₀, e₀), he₀, rfl⟩]
    exact Option.some_ne_none _

/-- A codec that does what is documented and no more. -/
noncomputable def replacingJson : Json Entries :=
  ⟨fun entries => (exists_replaced entries).choose, some, emptyStore GoString GoString⟩

theorem replacingJson_documented : replacingJson.Documented :=
  ⟨fun entries _ => ⟨_, rfl, (exists_replaced entries).choose_spec⟩, rfl⟩

/-- The shard has arrived: the target holds the source's entries of it, and no other new key. -/
structure Transferred (source target target' : Entries) (s : Tshid) : Prop where
  shard : ∀ key, key2Shard key = s → target' key = source key
  others : ∀ key, key2Shard key ≠ s → target key = none → target' key = none

namespace KVServer
variable {json : Json B} {source target kv : KVServer} {s : Tshid} {n : ℕ}

/-- A freeze that is repeated after the shard has moved away hands out nothing. -/
def MovedAway (kv : KVServer) (s : Tshid) (n : ℕ) : Prop :=
  kv.maxShardNum s = some n ∧ kv.migratedShards s = true

theorem collect_of_mem {key : GoString} (h : key2Shard key = s) : kv.collect s key = kv.keyValue key :=
  if_pos h

theorem collect_of_not_mem {key : GoString} (h : key2Shard key ≠ s) : kv.collect s key = none :=
  if_neg h

theorem finiteKeys_collect (h : FiniteKeys kv.keyValue) : FiniteKeys (kv.collect s) := by
  refine h.mono fun key hkey => ?_
  unfold collect at hkey
  split_ifs at hkey
  · exact hkey
  · exact absurd rfl hkey

/-- What an accepted freeze hands out. -/
theorem state_of_freeze (hjson : json.Documented) (hkv : FiniteKeys kv.keyValue)
    (hok : (kv.doFreezeShard json ⟨s, n⟩).2.err = .ok) :
    ∃ decoded, (kv.doFreezeShard json ⟨s, n⟩).2.state.bind json.unmarshal = some decoded ∧
      (kv.MovedAway s n ∧ decoded = emptyStore GoString GoString ∨
        ¬kv.MovedAway s n ∧ Replaced (kv.collect s) decoded) := by
  obtain ⟨decoded, hdecoded, hreplaced⟩ := hjson.marshal (kv.collect s) (finiteKeys_collect hkv)
  rcases kv.number_cases s n with ⟨maxNum, hmax, hlt⟩ | heq | hfresh
  · simp [doFreezeShard, hmax, hlt] at hok
  · rw [doFreezeShard_of_eq json ⟨s, n⟩ heq]
    cases hmoved : kv.migratedShards s with
    | true => exact ⟨_, hjson.emptyObject, Or.inl ⟨⟨heq, hmoved⟩, rfl⟩⟩
    | false =>
      exact ⟨decoded, hdecoded, Or.inr ⟨fun h => Bool.false_ne_true (hmoved.symm.trans h.2), hreplaced⟩⟩
  · rw [doFreezeShard_of_fresh json ⟨s, n⟩ hfresh]
    exact ⟨decoded, hdecoded, Or.inr ⟨fun h => hfresh.not_seen h.1 le_rfl, hreplaced⟩⟩

/-- What an accepted install leaves. -/
theorem keyValue_of_install {state : Option B} {decoded : Entries}
    (hstate : state.bind json.unmarshal = some decoded)
    (hok : (kv.doInstallShard json ⟨s, state, n⟩).2.err = .ok) :
    kv.maxShardNum s = some n ∧ (kv.doInstallShard json ⟨s, state, n⟩).1.keyValue = kv.keyValue ∨
      kv.maxShardNum s ≠ some n ∧ (kv.doInstallShard json ⟨s, state, n⟩).1.keyValue =
        fun key => (decoded key).or (kv.keyValue key) := by
  rcases kv.number_cases s n with ⟨maxNum, hmax, hlt⟩ | heq | hfresh
  · simp [doInstallShard, hmax, hlt] at hok
  · rw [doInstallShard_of_eq json ⟨s, state, n⟩ heq]
    exact Or.inl ⟨heq, rfl⟩
  · rw [doInstallShard_of_fresh json ⟨s, state, n⟩ hfresh, install]
    refine Or.inr ⟨fun heq => hfresh.not_seen heq le_rfl, ?_⟩
    simp only [hstate]

theorem transferred_self_iff (hbare : target.Bare s) :
    Transferred source.keyValue target.keyValue target.keyValue s ↔ source.Bare s := by
  constructor
  · intro h key hkey
    rw [← h.shard key hkey]
    exact hbare key hkey
  · intro h
    refine ⟨fun key hkey => ?_, fun _ _ hnone => hnone⟩
    rw [hbare key hkey, h key hkey]

theorem transferred_replaced_iff (hbare : target.Bare s) {decoded : Entries}
    (h : Replaced (source.collect s) decoded) :
    Transferred source.keyValue target.keyValue (fun key => (decoded key).or (target.keyValue key)) s ↔
      ∀ key e, key2Shard key = s → source.keyValue key = some e → Valid key ∧ Valid e.value := by
  constructor
  · intro htransferred key e hkey he
    have hsame := htransferred.shard key hkey
    rw [hbare key hkey, Option.or_none, he] at hsame
    exact h.valid hsame
  · intro hvalid
    have hdecoded : decoded = source.collect s := by
      refine h.eq_of_valid fun key e he => ?_
      by_cases hkey : key2Shard key = s
      · rw [collect_of_mem hkey] at he
        exact hvalid key e hkey he
      · rw [collect_of_not_mem hkey] at he
        cases he
    rw [hdecoded]
    refine ⟨fun key hkey => ?_, fun key hkey hnone => ?_⟩
    · rw [collect_of_mem hkey, hbare key hkey, Option.or_none]
    · rw [collect_of_not_mem hkey, Option.none_or, hnone]

end KVServer

/-- The state that an accepted freeze hands out and an accepted install takes in carries the shard
unchanged if and only if its keys and values are valid UTF-8 and, unless there are none, the freeze
is not repeated after the shard was marked as moved away and the install is not a repetition. -/
theorem shard_transferred_iff (json : Json B) (hjson : json.Documented) (source target : KVServer)
    (hsource : FiniteKeys source.keyValue) (s : Tshid) (n : ℕ)
    (hfreeze : (source.doFreezeShard json ⟨s, n⟩).2.err = .ok)
    (hinstall : (target.doInstallShard json
      ⟨s, (source.doFreezeShard json ⟨s, n⟩).2.state, n⟩).2.err = .ok)
    (hbare : ∀ key, key2Shard key = s → target.keyValue key = none) :
    Transferred source.keyValue target.keyValue (target.doInstallShard json
        ⟨s, (source.doFreezeShard json ⟨s, n⟩).2.state, n⟩).1.keyValue s ↔
      (∀ key e, key2Shard key = s → source.keyValue key = some e → Valid key ∧ Valid e.value) ∧
        ((∀ key, key2Shard key = s → source.keyValue key = none) ∨
          ¬source.MovedAway s n ∧ target.maxShardNum s ≠ some n) := by
  obtain ⟨decoded, hstate, hdecoded⟩ := KVServer.state_of_freeze hjson hsource hfreeze
  have hempty : source.Bare s → ∀ key e, key2Shard key = s → source.keyValue key = some e →
      Valid key ∧ Valid e.value := by
    intro hsource key e hkey he
    rw [hsource key hkey] at he
    cases he
  rcases KVServer.keyValue_of_install hstate hinstall with ⟨hseen, hkv⟩ | ⟨hnew, hkv⟩ <;> rw [hkv]
  · rw [KVServer.transferred_self_iff hbare]
    exact ⟨fun hsource => ⟨hempty hsource, Or.inl hsource⟩,
      fun h => h.2.resolve_right fun hr => hr.2 hseen⟩
  · rcases hdecoded with ⟨hmoved, rfl⟩ | ⟨hmoved, hreplaced⟩
    · change Transferred _ _ target.keyValue s ↔ _
      rw [KVServer.transferred_self_iff hbare]
      exact ⟨fun hsource => ⟨hempty hsource, Or.inl hsource⟩,
        fun h => h.2.resolve_right fun hr => hr.1 hmoved⟩
    · rw [KVServer.transferred_replaced_iff hbare hreplaced]
      exact (and_iff_left (Or.inr ⟨hmoved, hnew⟩)).symm

/-- A group that has executed one `Put` of the key `m`. -/
noncomputable def holding (value : GoString) : KVServer :=
  KVServer.start.run replacingJson [.value (.put ⟨[109], value, 0⟩)]

theorem holding_keyValue (value : GoString) : (holding value).keyValue =
    Function.update (emptyStore GoString GoString) [109] (some ⟨value, 1⟩) := rfl

theorem eq_of_holding {value key : GoString} {e : ValueEntry GoString}
    (h : (holding value).keyValue key = some e) : key = [109] ∧ e = ⟨value, 1⟩ := by
  rw [holding_keyValue] at h
  rcases eq_or_ne key [109] with rfl | hne
  · rw [Function.update_self] at h
    cases h
    exact ⟨rfl, rfl⟩
  · rw [Function.update_of_ne hne] at h
    cases h

theorem finiteKeys_holding (value : GoString) : FiniteKeys (holding value).keyValue :=
  finiteKeys_emptyStore.doPut ⟨[109], value, 0⟩

theorem shard_transferred_iff_text :
    Transferred (holding [120]).keyValue KVServer.start.keyValue (KVServer.start.doInstallShard
      replacingJson ⟨0, ((holding [120]).doFreezeShard replacingJson ⟨0, 1⟩).2.state, 1⟩).1.keyValue 0 := by
  refine (shard_transferred_iff replacingJson replacingJson_documented (holding [120]) .start
    (finiteKeys_holding _) 0 1 rfl rfl fun _ _ => rfl).mpr ⟨fun key e _ he => ?_, Or.inr ⟨?_, ?_⟩⟩
  · obtain ⟨rfl, rfl⟩ := eq_of_holding he
    decide
  · exact fun h => nomatch h.1
  · exact nofun

/-- The one byte `0xFF` comes back as the three bytes of `U+FFFD`. -/
theorem value_replaced_on_the_way :
    ((holding [0xFF]).doFreezeShard replacingJson ⟨0, 1⟩).2.err = .ok ∧
      (KVServer.start.doInstallShard replacingJson
        ⟨0, ((holding [0xFF]).doFreezeShard replacingJson ⟨0, 1⟩).2.state, 1⟩).2.err = .ok ∧
      key2Shard [109] = 0 ∧ (holding [0xFF]).keyValue [109] = some ⟨[0xFF], 1⟩ ∧
      (KVServer.start.doInstallShard replacingJson
          ⟨0, ((holding [0xFF]).doFreezeShard replacingJson ⟨0, 1⟩).2.state, 1⟩).1.keyValue [109] =
        some ⟨[0xEF, 0xBF, 0xBD], 1⟩ := by
  have hshard : key2Shard [109] = 0 := by decide +kernel
  have hentry : (holding [0xFF]).keyValue [109] = some ⟨[0xFF], 1⟩ := rfl
  have hfreeze : ((holding [0xFF]).doFreezeShard replacingJson ⟨0, 1⟩).2.err = .ok := rfl
  have hinstall : (KVServer.start.doInstallShard replacingJson
    ⟨0, ((holding [0xFF]).doFreezeShard replacingJson ⟨0, 1⟩).2.state, 1⟩).2.err = .ok := rfl
  refine ⟨hfreeze, hinstall, hshard, hentry, ?_⟩
  obtain ⟨decoded, hstate, ⟨hmoved, -⟩ | ⟨-, hreplaced⟩⟩ :=
    KVServer.state_of_freeze replacingJson_documented (finiteKeys_holding _) hfreeze
  · exact nomatch hmoved.1
  rcases KVServer.keyValue_of_install hstate hinstall with ⟨hseen, -⟩ | ⟨-, hkv⟩
  · exact nomatch hseen
  rw [← KVServer.collect_of_mem hshard] at hentry
  obtain ⟨e, he⟩ := Option.ne_none_iff_exists'.mp (hreplaced.kept [109] _ hentry)
  obtain ⟨key₀, e₀, he₀, -, rfl⟩ := hreplaced.source _ e he
  have hkey₀ : key2Shard key₀ = 0 := by
    by_contra hne
    rw [KVServer.collect_of_not_mem hne] at he₀
    cases he₀
  rw [KVServer.collect_of_mem hkey₀] at he₀
  obtain ⟨rfl, rfl⟩ := eq_of_holding he₀
  have hm : replaceInvalid [109] = [109] := by decide
  rw [hm] at he
  simp only [hkv, he]
  rfl

end DistributedLabs.ShardKv
