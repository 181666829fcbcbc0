import DistributedLabs.PublishedConfiguration

/-!
# The servers that a clerk is made for

A clerk for a group is made from the servers that a configuration lists for it, and
a list that is missing or empty ends the process. The clerks of `shardkv1` look the
list up in what `Query` answers. So does a controller for the group that gives a
shard away, but it decides to talk to that group first and asks `Query` again
afterwards, when another controller may have published a configuration that no
longer has the group.
-/

namespace DistributedLabs.ShardKv
open Kv RpcPrograms TransitionRuns

variable {B : Type}

/-- One round of the loop of `Clerk.Get` and `Clerk.Put`, up to the clerk for the group. An
answer `ErrWrongGroup` of the group leads to another round, which keeps nothing of this one. -/
def groupClerk (key : GoString) : Ctrl B Tgid := do
  match ← query with
  | none => .halt
  | some cfg =>
    let gid := cfg.shards (key2Shard key)
    makeClerk gid (cfg.groups.lookup gid)

/-- A `Get` or `Put` of a key that is looking for its group. -/
structure Lookup (B : Type) where
  key : GoString
  run : Running (Op.Ans (B := B)) Tgid

structure Site (B : Type) where
  fleet : Fleet B
  lookups : List (Lookup B)

inductive SiteAction
  | fleet (a : FleetAction)
  /-- `Clerk.Get` or `Clerk.Put` comes to the top of its loop -/
  | lookUp (key : GoString)
  | lookupAttempt (i : ℕ) (o : Outcome)
  /-- a clerk goes on to its group, or crashes -/
  | lookupLeave (i : ℕ)

namespace Site

def init (json : Json B) (first : ShardConfig) : Site B := ⟨Fleet.init json first, []⟩

def step (json : Json B) (d : Site B) : SiteAction → Option (Site B)
  | .fleet a => (d.fleet.step json a).map fun f => { d with fleet := f }
  | .lookUp key => some { d with lookups := d.lookups ++ [⟨key, .start (groupClerk key)⟩] }
  | .lookupAttempt i o => do
    let c ← d.lookups[i]?
    let r ← c.run.attempt (service json) o d.fleet.world
    pure ⟨{ d.fleet with world := r.2 }, d.lookups.set i { c with run := r.1 }⟩
  | .lookupLeave i =>
    if i < d.lookups.length then some { d with lookups := d.lookups.eraseIdx i } else none

variable {json : Json B} {d d' : Site B} {i : ℕ}

theorem step_lookupAttempt {o : Outcome} (hs : d.step json (.lookupAttempt i o) = some d') :
    ∃ c run w', d.lookups[i]? = some c ∧
      c.run.attempt (service json) o d.fleet.world = some (run, w') ∧
      d' = ⟨{ d.fleet with world := w' }, d.lookups.set i { c with run := run }⟩ := by
  simp only [step, Option.bind_eq_bind, Option.bind_eq_some_iff] at hs
  obtain ⟨c, hc, ⟨run, w'⟩, hr, heq⟩ := hs
  cases heq
  exact ⟨c, run, w', hc, hr, rfl⟩

theorem step_lookupLeave (hs : d.step json (.lookupLeave i) = some d') :
    d' = { d with lookups := d.lookups.eraseIdx i } := by
  simp only [step] at hs
  split_ifs at hs
  cases hs
  rfl

end Site

def HasServers (servers : Option (List GoString)) : Prop := ∃ l ∈ servers, l ≠ []

instance (servers : Option (List GoString)) : Decidable (HasServers servers) :=
  inferInstanceAs (Decidable (∃ l ∈ servers, l ≠ []))

/-- The configuration lists servers for the group. -/
def ListsServers (cfg : ShardConfig) (gid : Tgid) : Prop := HasServers (cfg.groups.lookup gid)

instance (cfg : ShardConfig) (gid : Tgid) : Decidable (ListsServers cfg gid) :=
  inferInstanceAs (Decidable (HasServers _))

/-- A shard is in a group with servers or unassigned. -/
def Complete (cfg : ShardConfig) : Prop := ∀ s, cfg.shards s ≠ 0 → ListsServers cfg (cfg.shards s)

instance (cfg : ShardConfig) : Decidable (Complete cfg) :=
  inferInstanceAs (Decidable (∀ s, cfg.shards s ≠ 0 → _))

/-- The configuration that `Query` answers. -/
def World.current (w : World) : Option ShardConfig := w.latest.bind w.config

/-- The configuration that `Query` answers lists servers for the group. -/
def World.Offers (w : World) (gid : Tgid) : Prop := ∃ cfg ∈ w.current, ListsServers cfg gid

/-- The number that the call publishes when it is served. -/
def Op.publication (w : World) : Op B → Option ℕ
  | .put ⟨.latest, .num n, version⟩ =>
    if version = versionOf w.ctl .latest then some n else none
  | _ => none

def Op.readsLatest : Op B → Bool
  | .get .latest => true
  | _ => false

/-- Every group with servers in the current configuration has servers in number `n`. -/
def World.NoneDropped (w : World) (n : ℕ) : Prop :=
  ∀ cfg ∈ w.current, ∀ new ∈ w.config n, ∀ gid ∈ cfg.groups.keys,
    ListsServers cfg gid → ListsServers new gid

instance (w : World) (n : ℕ) : Decidable (w.NoneDropped n) :=
  inferInstanceAs (Decidable (∀ cfg ∈ w.current, _))

/-- The configurations asked for list servers for every group they give a shard to; while other
controllers are at work, no configuration is published that drops a group; and whoever reads
`latest` to find the group of a key reads the number of a configuration that assigns the key's
shard. -/
def Prudent (d : Site B) : SiteAction → Prop
  | .fleet (.call (.changeConfigTo new)) => Complete new
  | .fleet (.attempt i o) =>
    o ≠ .requestLost → ∀ p ∈ d.fleet.processes[i]?, ∀ op ∈ p.run.prog.head,
      ∀ n ∈ op.publication d.fleet.world,
        (∀ p' ∈ d.fleet.processes.eraseIdx i, p'.run.prog.head.isNone) ∨
          d.fleet.world.NoneDropped n
  | .lookupAttempt i o =>
    o = .answered → ∀ c ∈ d.lookups[i]?, ∀ op ∈ c.run.prog.head, op.readsLatest = true →
      ∀ cfg ∈ d.fleet.world.current, cfg.shards (key2Shard c.key) ≠ 0
  | _ => True

instance (d : Site B) (a : SiteAction) : Decidable (Prudent d a) :=
  match a with
  | .fleet (.call (.changeConfigTo new)) => inferInstanceAs (Decidable (Complete new))
  | .fleet (.attempt _ o) => inferInstanceAs (Decidable (o ≠ .requestLost → _))
  | .lookupAttempt _ o => inferInstanceAs (Decidable (o = .answered → _))
  | .fleet (.call .initController) | .fleet (.call .query) | .fleet (.leave _)
  | .fleet (.clientPut _ _) | .lookUp _ | .lookupLeave _ => .isTrue trivial

/-- Stored configurations stay. -/
def Archives (w w' : World) : Prop := ∀ n cfg, w.config n = some cfg → w'.config n = some cfg

/-- Stored configurations stay, and so do the servers of the groups. -/
structure Retains (w w' : World) : Prop where
  config : Archives w w'
  offers : ∀ gid, w.Offers gid → w'.Offers gid

/-- The store has `latest` and its configuration, and every configuration in it is complete. -/
structure Listed (w : World) : Prop where
  ledgered : Ledgered w
  complete : ∀ n cfg, w.config n = some cfg → Complete cfg

section Store
variable {w w' : World} {n : ℕ} {v : Tversion} {cfg new : ShardConfig}

theorem current_eq {l : ℕ} (hl : w.latest = some l) (hcfg : w.config l = some cfg) :
    w.current = some cfg := by
  rw [World.current, hl, Option.bind_some, hcfg]

theorem Retains.of_latest (hconfig : Archives w w') (h : w'.ctl .latest = w.ctl .latest) :
    Retains w w' where
  config := hconfig
  offers := by
    rintro gid ⟨cfg, hcfg, hlists⟩
    obtain ⟨l, hl, hstored⟩ := Option.bind_eq_some_iff.mp hcfg
    have hl' : w'.latest = some l := by
      rw [World.latest, h]
      exact hl
    exact ⟨cfg, current_eq hl' (hconfig l cfg hstored), hlists⟩

theorem Archives.of_ctl (h : w'.ctl = w.ctl) : Archives w w' := by
  intro n cfg hcfg
  rw [World.config, h]
  exact hcfg

theorem Retains.of_ctl (h : w'.ctl = w.ctl) : Retains w w' := .of_latest (.of_ctl h) (by rw [h])

theorem Listed.of_ctl (hi : Listed w) (h : w'.ctl = w.ctl) : Listed w' where
  ledgered := hi.ledgered.of_ctl h
  complete n cfg hcfg := by
    rw [World.config, h] at hcfg
    exact hi.complete n cfg hcfg

/-- What reading `latest` tells. -/
theorem Listed.read (hi : Listed w) : ∃ l v cfg, doGet w.ctl ⟨.latest⟩ = ⟨.num l, v, .ok⟩ ∧
    w.config l = some cfg ∧ w.current = some cfg := by
  obtain ⟨l, v, hb⟩ := hi.ledgered
  obtain ⟨cfg, hcfg⟩ := hb.exists_current
  exact ⟨l, v, cfg, hb.doGet_latest, hcfg, current_eq hb.latest_eq hcfg⟩

theorem Listed.doGet_config (hi : Listed w) (hcfg : w.config n = some cfg) :
    doGet w.ctl ⟨.config (.num n)⟩ = ⟨.config cfg, 1, .ok⟩ := by
  obtain ⟨l, v, hb⟩ := hi.ledgered
  exact hb.doGet_config hcfg

/-- The groups that the current configuration gives shards to have servers in it. -/
theorem Listed.offers (hi : Listed w) (hcfg : w.current = some cfg) (s : Tshid)
    (hs : cfg.shards s ≠ 0) : w.Offers (cfg.shards s) := by
  obtain ⟨l, -, hstored⟩ := Option.bind_eq_some_iff.mp hcfg
  exact ⟨cfg, hcfg, hi.complete l cfg hstored s hs⟩

theorem Listed.claim (hi : Listed w) (hnew : Complete new) :
    Listed { w with ctl := (doPut w.ctl ⟨.config (.num new.num), .config new, 0⟩).1 } ∧
    Retains w { w with ctl := (doPut w.ctl ⟨.config (.num new.num), .config new, 0⟩).1 } ∧
    Stored new.num { w with ctl := (doPut w.ctl ⟨.config (.num new.num), .config new, 0⟩).1 } := by
  obtain ⟨l, v, hb⟩ := hi.ledgered
  cases hstored : storedConfig w.ctl new.num with
  | some cfg =>
    rw [doPut_claim_again hstored hb]
    exact ⟨hi, .of_ctl rfl, cfg, hstored⟩
  | none =>
    rw [doPut_claim hstored hb]
    have hlatest : claimed w.ctl new .latest = w.ctl .latest := claimed_latest
    refine ⟨⟨⟨l, v, hb.claim⟩, ?_⟩, .of_latest (Grows.claim hstored).config hlatest, new, ?_⟩
    · intro n cfg hcfg
      rw [World.config, storedConfig_claimed] at hcfg
      split_ifs at hcfg with hn
      · cases hcfg
        exact hnew
      · exact hi.complete n cfg hcfg
    · rw [World.config, storedConfig_claimed, if_pos rfl]

theorem Listed.publish (hi : Listed w) (hstored : Stored n w) :
    Listed { w with ctl := (doPut w.ctl ⟨.latest, .num n, v⟩).1 } ∧
    Archives w { w with ctl := (doPut w.ctl ⟨.latest, .num n, v⟩).1 } := by
  obtain ⟨l, v', hb⟩ := hi.ledgered
  obtain ⟨cfg, hcfg⟩ := hstored
  rw [doPut_publish hb]
  split_ifs
  · have hkept : ∀ m, World.config { w with ctl := published w.ctl n v' } m = w.config m :=
      storedConfig_published
    have hsome : storedConfig w.ctl n ≠ none := by
      intro hnone
      cases hnone.symm.trans hcfg
    refine ⟨⟨⟨n, v' + 1, hb.publish hsome⟩, ?_⟩, ?_⟩
    · intro m cfg hm
      exact hi.complete m cfg ((hkept m).symm.trans hm)
    · intro m cfg hm
      exact (hkept m).trans hm
  · exact ⟨hi, .of_ctl rfl⟩

end Store

/-- What a controller can know while it is at work. -/
def Retained (P : World → Prop) : Prop := ∀ w w', Retains w w' → P w → P w'

theorem Retained.and {P Q : World → Prop} (hP : Retained P) (hQ : Retained Q) :
    Retained fun w => P w ∧ Q w :=
  fun w w' hr h => ⟨hP w w' hr h.1, hQ w w' hr h.2⟩

theorem retained_true : Retained fun _ => True := fun _ _ _ _ => trivial

theorem retained_config (n : ℕ) (cfg : ShardConfig) : Retained fun w => w.config n = some cfg :=
  fun _ _ hr h => hr.config n cfg h

theorem retained_stored (n : ℕ) : Retained (Stored n) :=
  fun _ _ hr ⟨cfg, hcfg⟩ => ⟨cfg, hr.config n cfg hcfg⟩

/-- The groups that a configuration gives shards to have servers. -/
def Supports (old : ShardConfig) (w : World) : Prop :=
  ∀ s, old.shards s ≠ 0 → w.Offers (old.shards s)

theorem retained_supports (old : ShardConfig) : Retained (Supports old) :=
  fun _ _ hr h s hs => hr.offers _ (h s hs)

def listingRules (json : Json B) : Rules World (Op.Ans (B := B)) where
  service := service json
  admits _ _ _ _ := True
  inv := Listed
  rely := Retains
  guar := Archives
  issue _ _ := True

namespace Listing
variable {json : Json B} {w : World} {P : World → Prop} {old new : ShardConfig} {l n : ℕ}

theorem stable (hP : Retained P) : (listingRules json).Stable P :=
  fun w w' _ hr _ hp => hP w w' hr hp

theorem step_get (hP : Retained P) {key : CtrlKey} {Q : GetReply CtrlValue → World → Prop}
    (h : ∀ w, Listed w → P w → Q (doGet w.ctl ⟨key⟩) w) :
    (listingRules json).Step (.get key) P Q := by
  refine .read (fun _ => rfl) (fun _ => .of_ctl rfl) (stable hP) (fun _ _ _ => trivial) ?_
  intro w b r hi hp _ hr
  cases hr
  exact h w hi hp

/-- A call that does not write the store keeps what is retained, whatever it is answered. -/
theorem step_quiet (hP : Retained P) {op : Op B} (hop : op.writes = false)
    {Q : op.Ans → World → Prop} (h : ∀ r w, P w → Q r w) : (listingRules json).Step op P Q := by
  refine (Publishing.step_quiet rfl hop (stable hP) (fun _ _ _ => trivial) ?_).mono h
  exact fun w w' hctl hi hp => ⟨hi.of_ctl hctl, .of_ctl hctl, hP w w' (.of_ctl hctl) hp⟩

/-- `Query` answers the configuration that was current when it read `latest`. -/
theorem within_query {F : ShardConfig → World → Prop} (hP : Retained P)
    (hF : ∀ cfg, Retained (F cfg))
    (h : ∀ w cfg, Listed w → w.current = some cfg → P w → F cfg w) (hw : P w) :
    (listingRules json).Within False (fun r w => ∃ cfg, r = some cfg ∧ F cfg w) query w := by
  refine .call P hw (step_get hP fun w hi hw => ?_)
  obtain ⟨l, v, cfg, hget, hcfg, hcurrent⟩ := hi.read
  rw [hget]
  have hretained := (hF cfg).and (retained_config l cfg)
  refine .call _ ⟨h w cfg hi hcurrent hw, hcfg⟩ (step_get hretained fun w hi hw => ?_)
  rw [hi.doGet_config hw.2]
  exact ⟨cfg, rfl, hw.1⟩

theorem within_getServersForGroup {gid : Tgid} (hP : Retained P) (hgid : ∀ w, P w → w.Offers gid)
    (hw : P w) : (listingRules json).Within False (fun r w => HasServers r ∧ P w)
      (getServersForGroup gid) w := by
  have hread : ∀ w cfg, Listed w → w.current = some cfg → P w → ListsServers cfg gid ∧ P w := by
    intro w cfg _ hcurrent hw
    obtain ⟨cfg', hcfg', hlists⟩ := hgid w hw
    cases hcfg'.symm.trans hcurrent
    exact ⟨hlists, hw⟩
  have hretained : ∀ cfg : ShardConfig, Retained fun w => ListsServers cfg gid ∧ P w :=
    fun cfg w w' hr h => ⟨h.1, hP w w' hr h.2⟩
  refine .bind ((within_query hP hretained hread hw).mono ?_)
  rintro _ w ⟨cfg, rfl, hlists, hw⟩
  exact ⟨hlists, hw⟩

theorem within_makeClerk {dead : Prop} {R : Rules World (Op.Ans (B := B))} {Q : Tgid → World → Prop}
    {gid : Tgid} {servers : Option (List GoString)} (h : HasServers servers) (hQ : Q gid w) :
    R.Within dead Q (makeClerk gid servers) w := by
  obtain ⟨l, hl, hne⟩ := h
  cases hl
  cases l with
  | nil => exact absurd rfl hne
  | cons i is => exact hQ

theorem within_handOver {fromCk toGid : Tgid} {toServers : Option (List GoString)} {s : Tshid}
    (hP : Retained P) (hto : HasServers toServers) (hw : P w) :
    (listingRules json).Within False (fun _ => P) (handOver fromCk toGid toServers s n) w := by
  refine .call P hw (step_quiet hP rfl fun frozen w hw => ?_)
  refine .bind (within_makeClerk hto ?_)
  refine .call P hw (step_quiet hP rfl fun _ w hw => ?_)
  exact .call P hw (step_quiet hP rfl fun _ w hw => hw)

/-- The group that gives a shard away is looked up while it still has servers, the one that
gets it in the configuration that gives it the shard. -/
theorem within_moveShard (hP : Retained P) (hold : ∀ w, P w → Supports old w) (hnew : Complete new)
    (s : Tshid) (hw : P w) :
    (listingRules json).Within False (fun _ => P) (moveShard old new s) w := by
  simp only [moveShard]
  split_ifs with hsame hmove hgone
  · exact hw
  · have hgid : ∀ w, P w → w.Offers (old.shards s) := fun w hw => hold w hw s hmove.1
    refine .bind ((within_query hP (fun _ => hP) (fun _ _ _ _ hw => hw) hw).mono ?_)
    rintro currentCfg w ⟨-, -, hw⟩
    split_ifs
    · exact hw
    · refine .bind ((within_getServersForGroup hP hgid hw).mono fun servers w hw => ?_)
      refine .bind (within_makeClerk hw.1 ?_)
      exact within_handOver hP (hnew s hmove.2) hw.2
  · have hgid : ∀ w, P w → w.Offers (old.shards s) := fun w hw => hold w hw s hgone
    refine .bind ((within_getServersForGroup hP hgid hw).mono fun servers w hw => ?_)
    refine .bind (within_makeClerk hw.1 ?_)
    exact .call P hw.2 (step_quiet hP rfl fun _ w hw => hw)
  · exact hw

theorem within_moveShards (hP : Retained P) (hold : ∀ w, P w → Supports old w) (hnew : Complete new)
    (hw : P w) : (listingRules json).Within False (fun _ => P) (moveShards old new) w :=
  .forM (fun _ => P) _ (fun _ s _ _ _ hw => within_moveShard hP hold hnew s hw) hw

theorem within_publish {v : Tversion} (hw : Stored n w) :
    (listingRules json).Within False (fun _ _ => True) (publish n v) w := by
  refine .call (Stored n) hw ⟨stable (retained_stored n), fun _ _ _ => trivial, ?_, ?_⟩
  · intro w b o hi hw _ _
    obtain ⟨hi', harchives⟩ := hi.publish (v := v) hw
    obtain ⟨cfg, hcfg⟩ := hw
    exact ⟨hi', harchives, cfg, harchives n cfg hcfg⟩
  · intro w b r _ _ _ _
    trivial

theorem step_claim (hP : Retained P) (hnew : Complete new) : (listingRules json).Step
    (.put ⟨.config (.num new.num), .config new, 0⟩) P fun _ w => Stored new.num w ∧ P w := by
  refine ⟨stable hP, fun _ _ _ => trivial, ?_, ?_⟩
  · intro w b o hi hw _ _
    obtain ⟨hi', hr, -⟩ := hi.claim hnew
    exact ⟨hi', hr.config, hP _ _ hr hw⟩
  · intro w b r hi hw _ _
    obtain ⟨-, hr, hstored⟩ := hi.claim hnew
    exact ⟨hstored, hP _ _ hr hw⟩

theorem within_carryOut (hnew : Complete new) (hw : Stored new.num w ∧ Supports old w) :
    (listingRules json).Within False (fun _ _ => True) (carryOut old new) w := by
  have hretained := (retained_stored new.num).and (retained_supports old)
  refine .call _ hw (step_get hretained fun w _ hw => ?_)
  refine .call _ hw (step_get hretained fun w _ hw => ?_)
  split_ifs
  · trivial
  · trivial
  · refine .bind ((within_moveShards hretained (fun _ hw => hw.2) hnew hw).mono fun _ w hw => ?_)
    exact within_publish hw.1

theorem within_changeConfigTo (hnew : Complete new) :
    (listingRules json).Within False (fun _ _ => True) (changeConfigTo new) w := by
  have hread : ∀ w cfg, Listed w → w.current = some cfg → True → Supports cfg w :=
    fun w cfg hi hcurrent _ => hi.offers hcurrent
  refine .bind ((within_query retained_true retained_supports hread trivial).mono ?_)
  rintro _ w ⟨old, rfl, hold⟩
  change Rules.Within _ _ _ (if old.num ≥ new.num then _ else _) w
  split_ifs
  · trivial
  · refine .call _ hold ((step_claim (retained_supports old) hnew).mono fun err w hw => ?_)
    split_ifs
    · trivial
    · exact within_carryOut hnew hw

/-- What `InitController` found is the number of a stored configuration and a complete one. -/
def Recoverable (found : ℕ × CtrlValue) (w : World) : Prop :=
  found.1 = 0 ∨ Stored found.1 w ∧ ∃ cfg, found.2 = .config cfg ∧ Complete cfg

theorem retained_recoverable (found : ℕ × CtrlValue) : Retained (Recoverable found) :=
  fun w w' hr h => h.imp_right fun h => ⟨retained_stored _ w w' hr h.1, h.2⟩

theorem within_findPending (is : List ℕ) {found : ℕ × CtrlValue} (hw : Recoverable found w) :
    (listingRules json).Within False Recoverable (findPending l is found) w := by
  induction is generalizing found w with
  | nil => exact hw
  | cons i is ih =>
    refine .call _ hw (step_get (retained_recoverable found) fun w hi hw => ?_)
    cases hstored : w.config (l + i) with
    | none =>
      obtain ⟨l', v, hb⟩ := hi.ledgered
      simp only [hb.doGet_missing hstored, reduceCtorEq, if_false]
      exact hw
    | some cfg =>
      rw [hi.doGet_config hstored]
      exact ih (Or.inr ⟨⟨cfg, hstored⟩, cfg, rfl, hi.complete _ cfg hstored⟩)

theorem within_recover (hnew : Complete new) (hw : Stored n w) :
    (listingRules json).Within False (fun _ _ => True) (recover n new) w := by
  have hread : ∀ w cfg, Listed w → w.current = some cfg → Stored n w →
      Stored n w ∧ Supports cfg w :=
    fun w cfg hi hcurrent hw => ⟨hw, hi.offers hcurrent⟩
  have hretained := fun cfg => (retained_stored n).and (retained_supports cfg)
  refine .bind ((within_query (retained_stored n) hretained hread hw).mono ?_)
  rintro _ w ⟨old, rfl, hw⟩
  refine .call _ hw (step_quiet (hretained old) rfl fun latest w hw => ?_)
  refine .bind ((within_moveShards (hretained old) (fun _ hw => hw.2) hnew hw).mono ?_)
  intro _ w hw
  exact within_publish hw.1

theorem within_initController :
    (listingRules json).Within False (fun _ _ => True) initController w := by
  refine .call _ trivial (step_get retained_true fun w hi _ => ?_)
  split_ifs
  · trivial
  · refine .bind ((within_findPending _ (Or.inl rfl)).mono fun found w hfound => ?_)
    split_ifs with hzero
    · trivial
    · obtain ⟨hstored, cfg, hcfg, hcomplete⟩ := hfound.resolve_left hzero
      rw [hcfg]
      exact .bind (within_recover hcomplete hstored)

end Listing

/-- A clerk reads `latest` while the key's shard is assigned, and it writes nothing; what is
published meanwhile may drop groups. -/
def lookupRules (json : Json B) (key : GoString) : Rules World (Op.Ans (B := B)) where
  service := service json
  admits w _ op o := o = .answered → op.readsLatest = true →
    ∀ cfg ∈ w.current, cfg.shards (key2Shard key) ≠ 0
  inv := Listed
  rely := Archives
  guar w w' := w' = w
  issue _ _ := True

theorem step_lookupGet {json : Json B} {key : GoString} {P : World → Prop} {k : CtrlKey}
    {Q : GetReply CtrlValue → World → Prop} (hP : ∀ w w', Archives w w' → P w → P w')
    (h : ∀ w, Listed w → P w →
      (k = .latest → ∀ cfg ∈ w.current, cfg.shards (key2Shard key) ≠ 0) →
      Q (doGet w.ctl ⟨k⟩) w) : (lookupRules json key).Step (.get k) P Q := by
  refine .read (fun _ => rfl) (fun _ => rfl) (fun w w' _ hr _ => hP w w' hr)
    (fun _ _ _ => trivial) ?_
  intro w b r hi hp hadm hr
  cases hr
  refine h w hi hp ?_
  rintro rfl
  exact hadm rfl rfl

/-- The configuration that a clerk gets to see assigns its key's shard, to a group with servers. -/
theorem within_groupClerk {json : Json B} {key : GoString} {w : World} :
    (lookupRules json key).Within False (fun _ _ => True) (groupClerk key) w := by
  apply Rules.Within.bind
  refine .call (fun _ => True) trivial (step_lookupGet (fun _ _ _ _ => trivial) ?_)
  intro w hi _ hassigned
  obtain ⟨l, v, cfg, hget, hcfg, hcurrent⟩ := hi.read
  rw [hget]
  have hstays : ∀ w w', Archives w w' → w.config l = some cfg → w'.config l = some cfg :=
    fun _ _ hr h => hr l cfg h
  refine .call _ hcfg (step_lookupGet hstays fun w hi hcfg _ => ?_)
  rw [hi.doGet_config hcfg]
  have hlists := hi.complete l cfg hcfg _ (hassigned rfl cfg hcurrent)
  exact Listing.within_makeClerk hlists trivial

/-- What a served call does to `latest`: nothing, or it publishes what it was asked to. -/
theorem latest_of_served {json : Json B} {w w' : World} {op : Op B}
    (h : w' = ((service json).serve w op).2) : w'.ctl .latest = w.ctl .latest ∨
      ∃ value, op = .put ⟨.latest, value, versionOf w.ctl .latest⟩ ∧
        w'.ctl .latest = some ⟨value, versionOf w.ctl .latest + 1⟩ ∧
        ∀ n, w'.config n = w.config n := by
  cases hop : op.writes with
  | false =>
    left
    rw [h, Publishing.serve_ctl hop]
  | true =>
    cases op with
    | put args =>
      obtain ⟨key, value, version⟩ := args
      have hctl : w'.ctl = (doPut w.ctl ⟨key, value, version⟩).1 := by rw [h]; rfl
      rw [doPut_eq] at hctl
      split_ifs at hctl with hv
      · cases key with
        | latest =>
          obtain rfl : version = versionOf w.ctl .latest := hv
          refine Or.inr ⟨value, rfl, by simp [hctl], fun n => ?_⟩
          simp [World.config, storedConfig, hctl]
        | config suffix => exact Or.inl (by simp [hctl])
      · exact Or.inl (by rw [hctl])
    | get key => cases hop
    | readVersion key pending => cases hop
    | freezeShard gid args => cases hop
    | installShard gid args => cases hop
    | deleteShard gid args => cases hop

theorem World.NoneDropped.lists {w : World} {n : ℕ} {cfg new : ShardConfig} {gid : Tgid}
    (h : w.NoneDropped n) (hcfg : w.current = some cfg) (hnew : w.config n = some new)
    (hlists : ListsServers cfg gid) : ListsServers new gid := by
  obtain ⟨servers, hservers, -⟩ := id hlists
  have hmem : gid ∈ cfg.groups := Finmap.mem_of_lookup_eq_some hservers
  exact h cfg hcfg new hnew gid (Finmap.mem_keys.mpr hmem) hlists

/-- An attempt that publishes nothing, or a number that drops no group, leaves every group its
servers. -/
theorem Retains.of_attempt {α : Type} {json : Json B} {w w' : World} {o : Outcome}
    {t t' : Running (Op.Ans (B := B)) α} (hi' : Listed w') (ha : Archives w w')
    (hs : t.attempt (service json) o w = some (t', w'))
    (h : o ≠ .requestLost → ∀ op ∈ t.prog.head, ∀ n ∈ op.publication w, w.NoneDropped n) :
    Retains w w' := by
  rcases Running.attempt_state hs with rfl | ⟨ho, op, hop, hserved⟩
  · exact .of_ctl rfl
  · rcases latest_of_served hserved with hl | ⟨value, rfl, hl, hconfig⟩
    · exact .of_latest ha hl
    · obtain ⟨n, v, hb⟩ := hi'.ledgered
      obtain ⟨new, hnew⟩ := hb.exists_current
      obtain rfl : value = .num n := by
        cases hl.symm.trans hb.latest
        rfl
      refine ⟨ha, ?_⟩
      rintro gid ⟨cfg, hcfg, hlists⟩
      have hnone := h ho _ hop n (by simp [Op.publication])
      have hnew' : w.config n = some new := (hconfig n).symm.trans hnew
      exact ⟨new, current_eq hb.latest_eq hnew, hnone.lists hcfg hnew' hlists⟩

theorem mem_set_cases {α : Type} {l : List α} {i : ℕ} {a x : α} (h : x ∈ l.set i a) :
    x = a ∨ x ∈ l.eraseIdx i := by
  induction l generalizing i with
  | nil => cases h
  | cons b l ih =>
    cases i with
    | zero => simpa using h
    | succ i =>
      rcases List.mem_cons.mp h with rfl | h
      · simp
      · exact (ih h).imp_right (List.mem_cons_of_mem b)

namespace Site
variable {json : Json B} {d d' : Site B} {w' : World}

/-- No process is on the way to a clerk without servers. -/
structure Sound (json : Json B) (d : Site B) : Prop where
  listed : Listed d.fleet.world
  controllers : ∀ p ∈ d.fleet.processes,
    (listingRules json).Within False (fun _ _ => True) p.run.prog d.fleet.world
  lookups : ∀ c ∈ d.lookups,
    (lookupRules json c.key).Within False (fun _ _ => True) c.run.prog d.fleet.world

theorem Sound.controllers_retain (h : d.Sound json) (hi : Listed w')
    (hr : Retains d.fleet.world w') :
    ∀ p ∈ d.fleet.processes,
      (listingRules json).Within False (fun _ _ => True) p.run.prog w' :=
  fun p hp => Rules.Within.stable (fun _ => Listing.stable retained_true) p.run.prog _ _ h.listed hr
    hi (h.controllers p hp)

theorem Sound.lookups_archive (h : d.Sound json) (hi : Listed w') (ha : Archives d.fleet.world w') :
    ∀ c ∈ d.lookups, (lookupRules json c.key).Within False (fun _ _ => True) c.run.prog w' :=
  fun c hc => Rules.Within.stable (fun _ _ _ _ _ _ _ => trivial) c.run.prog _ _ h.listed ha hi
    (h.lookups c hc)

/-- A process that has returned does not mind what happens. -/
theorem within_of_returned {p : Ctrl B (Option ShardConfig)} {w : World}
    (h : (listingRules json).Within False (fun _ _ => True) p w) (hp : p.head.isNone) :
    (listingRules json).Within False (fun _ _ => True) p w' := by
  cases p with
  | pure a => trivial
  | halt => exact h
  | call op next => cases hp

theorem Sound.attempt {i : ℕ} {o : Outcome} (h : d.Sound json)
    (hg : Prudent d (.fleet (.attempt i o)))
    {f : Fleet B} (hs : d.fleet.step json (.attempt i o) = some f) :
    Sound json { d with fleet := f } := by
  obtain ⟨p, run, w', hp, hr, rfl⟩ := Fleet.step_attempt hs
  have hp' : p ∈ d.fleet.processes := List.mem_of_getElem? hp
  have hrefl : Archives d.fleet.world d.fleet.world := .of_ctl rfl
  have hattempt : p.run.attempt (listingRules json).service o d.fleet.world = some (run, w') := hr
  obtain ⟨hi, ha, hwithin⟩ :=
    Rules.Within.attempt h.listed hrefl (h.controllers p hp') (fun _ _ => trivial) hattempt
  refine ⟨hi, fun p₂ hp₂ => ?_, h.lookups_archive hi ha⟩
  rcases mem_set_cases hp₂ with rfl | hp₂
  · exact hwithin
  · have hmem : p₂ ∈ d.fleet.processes := List.mem_of_mem_eraseIdx hp₂
    by_cases hdone : ∀ p₂ ∈ d.fleet.processes.eraseIdx i, p₂.run.prog.head.isNone
    · exact within_of_returned (h.controllers p₂ hmem) (hdone p₂ hp₂)
    · have hretains : Retains d.fleet.world w' := by
        refine .of_attempt hi ha hr fun ho op hop n hn => ?_
        exact (hg ho p hp op hop n hn).resolve_left hdone
      exact h.controllers_retain hi hretains p₂ hmem

theorem within_request (r : Request) (hg : Prudent d (.fleet (.call r))) (w : World) :
    (listingRules json).Within False (fun _ _ => True) (Request.prog r) w := by
  cases r with
  | initController => exact .bind (Listing.within_initController.mono fun _ _ _ => trivial)
  | query =>
    have htrue := fun _ : ShardConfig => retained_true
    exact (Listing.within_query retained_true htrue (fun _ _ _ _ _ => trivial) trivial).mono
      fun _ _ _ => trivial
  | changeConfigTo new =>
    exact .bind ((Listing.within_changeConfigTo hg).mono fun _ _ _ => trivial)

theorem Sound.fleet {a : FleetAction} (h : d.Sound json) (hg : Prudent d (.fleet a)) {f : Fleet B}
    (hs : d.fleet.step json a = some f) : Sound json { d with fleet := f } := by
  cases a with
  | call r =>
    cases hs
    refine ⟨h.listed, fun p hp => ?_, h.lookups⟩
    rcases List.mem_append.mp hp with hp | hp
    · exact h.controllers p hp
    · rw [List.mem_singleton.mp hp]
      exact within_request r hg _
  | attempt i o => exact h.attempt hg hs
  | leave i =>
    rw [Fleet.step_leave hs]
    exact ⟨h.listed, fun p hp => h.controllers p (List.mem_of_mem_eraseIdx hp), h.lookups⟩
  | clientPut gid args =>
    cases hs
    have hi : Listed (d.fleet.world.clientPut gid args) := h.listed.of_ctl rfl
    exact ⟨hi, h.controllers_retain hi (.of_ctl rfl), h.lookups_archive hi (.of_ctl rfl)⟩

theorem Sound.lookupAttempt {i : ℕ} {o : Outcome} (h : d.Sound json)
    (hg : Prudent d (.lookupAttempt i o)) (hs : d.step json (.lookupAttempt i o) = some d') :
    d'.Sound json := by
  obtain ⟨c, run, w', hc, hr, rfl⟩ := step_lookupAttempt hs
  have hattempt : c.run.attempt (lookupRules json c.key).service o d.fleet.world = some (run, w') :=
    hr
  obtain ⟨hi, rfl, hwithin⟩ := Rules.Within.attempt h.listed rfl
    (h.lookups c (List.mem_of_getElem? hc)) (fun op hop ho => hg ho c hc op hop) hattempt
  refine ⟨h.listed, h.controllers, fun c₂ hc₂ => ?_⟩
  rcases List.mem_or_eq_of_mem_set hc₂ with hc₂ | rfl
  · exact h.lookups c₂ hc₂
  · exact hwithin

theorem Sound.step {a : SiteAction} (h : d.Sound json) (hg : Prudent d a)
    (hs : d.step json a = some d') : d'.Sound json := by
  cases a with
  | fleet a =>
    obtain ⟨f, hf, rfl⟩ := Option.map_eq_some_iff.mp hs
    exact h.fleet hg hf
  | lookUp key =>
    cases hs
    refine ⟨h.listed, h.controllers, fun c hc => ?_⟩
    rcases List.mem_append.mp hc with hc | hc
    · exact h.lookups c hc
    · rw [List.mem_singleton.mp hc]
      exact within_groupClerk
  | lookupAttempt i o => exact h.lookupAttempt hg hs
  | lookupLeave i =>
    rw [step_lookupLeave hs]
    exact ⟨h.listed, h.controllers, fun c hc => h.lookups c (List.mem_of_mem_eraseIdx hc)⟩

theorem sound_init {first : ShardConfig} (hfirst : Complete first) :
    (Site.init json first).Sound json := by
  have hbook : Book Complete (System.init json first).world.ctl first.num 1 :=
    (book_init json hfirst).1
  refine ⟨⟨⟨first.num, 1, hbook.ledger⟩, ?_⟩, nofun, nofun⟩
  intro n cfg hcfg
  exact (hbook.of_config hcfg).2.2

end Site

/-- In every prudent run that starts from a complete configuration, no controller and no clerk
dies for want of a configuration or of servers. -/
theorem every_clerk_has_servers {json : Json B} {first : ShardConfig} (hfirst : Complete first)
    (d : Site B)
    (h : Reaches (Site.step json) Prudent (Site.init json first) d) :
    (∀ p ∈ d.fleet.processes, p.run.prog ≠ .halt) ∧ ∀ c ∈ d.lookups, c.run.prog ≠ .halt := by
  have hsound : d.Sound json :=
    h.invariant (Site.sound_init hfirst) fun _ _ _ hd hg hs => hd.step hg hs
  exact ⟨fun p hp => (hsound.controllers p hp).ne_halt, fun c hc => (hsound.lookups c hc).ne_halt⟩

/-- A shard is moved out of a group while a clerk looks for it, and then the group leaves. -/
theorem every_clerk_has_servers_group_leaves : ∃ d : Site Entries,
    Complete (twoGroups 1 2) ∧
      Reaches (Site.step plainJson) Prudent (Site.init plainJson (twoGroups 1 2)) d ∧
      d.fleet.world.current = some (oneGroup 3) ∧ d.lookups.length = 1 ∧
      (∀ p ∈ d.fleet.processes, p.run.prog ≠ .halt) ∧ ∀ c ∈ d.lookups, c.run.prog ≠ .halt := by
  have hfirst : Complete (twoGroups 1 2) := by decide
  obtain ⟨d, hreach, hcurrent, hlookups⟩ :=
    exists_reaches (Site.step plainJson) Prudent (Site.init plainJson (twoGroups 1 2))
      ([[.fleet (.call (.changeConfigTo (twoGroups 2 1))), .lookUp [109], .lookupAttempt 0 .answered],
        List.replicate 13 (.fleet (.attempt 0 .answered)),
        [.fleet (.call (.changeConfigTo (oneGroup 3)))],
        List.replicate 6 (.fleet (.attempt 1 .answered)),
        [.lookupAttempt 0 .answered]] : List (List SiteAction)).flatten
      (fun d => d.fleet.world.current = some (oneGroup 3) ∧ d.lookups.length = 1)
      (by decide +kernel)
  exact ⟨d, hfirst, hreach, hcurrent, hlookups, every_clerk_has_servers hfirst d hreach⟩

/-- A clerk asks for a key of an unassigned shard. And a controller is about to look up the
group that shard 0 is to leave when another one completes its change, and a third one publishes
a configuration without the group. -/
theorem clerk_without_servers :
    (∃ d : Site Entries,
      Reaches (Site.step plainJson) anyStep (Site.init plainJson (twoGroups 1 0)) d ∧
        ∃ c ∈ d.lookups, c.run.prog = .halt) ∧
    ∃ d : Site Entries,
      Reaches (Site.step plainJson) anyStep (Site.init plainJson (twoGroups 1 2)) d ∧
        ∃ p ∈ d.fleet.processes, p.run.prog = .halt := by
  constructor
  · exact exists_reaches (Site.step plainJson) anyStep
      (Site.init plainJson (twoGroups 1 0))
      [.lookUp [109], .lookupAttempt 0 .answered, .lookupAttempt 0 .answered]
      (fun d => ∃ c ∈ d.lookups, c.run.prog = .halt) (by decide +kernel)
  · exact exists_reaches (Site.step plainJson) anyStep
      (Site.init plainJson (twoGroups 1 2))
      ([[.fleet (.call (.changeConfigTo (twoGroups 2 1))), .fleet (.call .initController)],
        List.replicate 7 (.fleet (.attempt 0 .answered)),
        List.replicate 14 (.fleet (.attempt 1 .answered)),
        [.fleet (.call (.changeConfigTo (oneGroup 3)))],
        List.replicate 6 (.fleet (.attempt 2 .answered)),
        List.replicate 2 (.fleet (.attempt 0 .answered))] : List (List SiteAction)).flatten
      (fun d => ∃ p ∈ d.fleet.processes, p.run.prog = .halt) (by decide +kernel)

end DistributedLabs.ShardKv
