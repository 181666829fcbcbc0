import DistributedLabs.ShardController

/-!
# Controllers at the same time

Any number of controllers share the store. What one of them has read may be out
of date when it acts on it; what stays true is that a stored configuration never
changes, that `latest` does not go back, and that a version of `latest` belongs to
one number. From that, a call that moves a shard is always part of the change that
the two stored configurations describe, as long as a claim answered by `ErrMaybe`
was won and `InitController` reads the version of `latest` before the change it
found has been overtaken.
-/

namespace DistributedLabs.ShardKv
open Kv RpcPrograms TransitionRuns

variable {B : Type}

/-- The call is part of the change to number `n`, which moves the shard; a controller asked to
carry out `target` does so only if that is the stored configuration. -/
def PartOf (w : World) (target : Option ShardConfig) (s : Tshid) (n : ℕ)
    (p : ShardConfig → ShardConfig → Prop) : Prop :=
  0 < n ∧ ∃ old ∈ w.config (n - 1), ∃ new ∈ w.config n,
    old.shards s ≠ new.shards s ∧ p old new ∧ ∀ t ∈ target, t = new

instance (w : World) (target : Option ShardConfig) (s : Tshid) (n : ℕ)
    (p : ShardConfig → ShardConfig → Prop) [∀ old new, Decidable (p old new)] :
    Decidable (PartOf w target s n p) := inferInstanceAs (Decidable (_ ∧ _))

/-- Freeze and delete go to the group that has the shard in the configuration before, install
goes to the group that has it in the configuration itself. -/
def Rightful (w : World) (target : Option ShardConfig) : Op B → Prop
  | .freezeShard gid args =>
    PartOf w target args.shard args.num fun old _ => old.shards args.shard = gid
  | .installShard gid args =>
    PartOf w target args.shard args.num fun _ new => new.shards args.shard = gid
  | .deleteShard gid args =>
    PartOf w target args.shard args.num fun old _ => old.shards args.shard = gid
  | .get _ | .readVersion _ _ | .put _ => True

instance (w : World) (target : Option ShardConfig) (op : Op B) :
    Decidable (Rightful w target op) :=
  match op with
  | .freezeShard _ _ | .installShard _ _ | .deleteShard _ _ =>
    inferInstanceAs (Decidable (PartOf _ _ _ _ _))
  | .get _ | .readVersion _ _ | .put _ => .isTrue trivial

/-- The number and the configuration that a `Put` claims. -/
def Op.claim : Op B → Option (ℕ × ShardConfig)
  | .put ⟨.config (.num n), .config new, _⟩ => some (n, new)
  | _ => none

/-- The number of the change for which `InitController` reads the version of `latest`. -/
def Op.pending : Op B → Option ℕ
  | .readVersion _ n => some n
  | _ => none

/-- The call writes `latest`. -/
def Op.publishes : Op B → Bool
  | .put ⟨.latest, _, _⟩ => true
  | _ => false

/-- A resent claim is not answered when another configuration is stored under its number; the
version of `latest` is read by `InitController` while `latest` is not past the number it found
unfinished; and the version of `latest` does not wrap around. -/
def Admitted (w : World) (resend : Bool) (op : Op B) (o : Outcome) : Prop :=
  (o = .answered → resend = true → ∀ c ∈ op.claim, ∀ cfg ∈ w.config c.1, cfg = c.2) ∧
  (o = .answered → ∀ n ∈ op.pending, ∀ l ∈ w.latest, l ≤ n) ∧
  (o ≠ .requestLost → op.publishes = true → (versionOf w.ctl .latest).toNat + 1 < UInt64.size)

instance (w : World) (resend : Bool) (op : Op B) (o : Outcome) :
    Decidable (Admitted w resend op o) := inferInstanceAs (Decidable (_ ∧ _))

/-- `ChangeConfigTo` is called with a number one more than that of a configuration that a `Query`
has returned. -/
def FollowsQuery (f : Fleet B) : FleetAction → Prop
  | .call (.changeConfigTo new) => ∃ p ∈ f.processes, ∃ cfg ∈ p.answer, new.num = cfg.num + 1
  | _ => True

instance (f : Fleet B) (a : FleetAction) : Decidable (FollowsQuery f a) :=
  match a with
  | .call (.changeConfigTo _) => inferInstanceAs (Decidable (∃ p ∈ f.processes, _))
  | .call .initController | .call .query | .attempt _ _ | .leave _ | .clientPut _ _ => .isTrue trivial

/-- Every attempt is admitted. -/
def Careful (f : Fleet B) : FleetAction → Prop
  | .attempt i o => ∀ p ∈ f.processes[i]?, ∀ op ∈ p.run.prog.head,
    Admitted f.world p.run.resend op o
  | a => FollowsQuery f a

instance (f : Fleet B) (a : FleetAction) : Decidable (Careful f a) :=
  match a with
  | .attempt i _ => inferInstanceAs (Decidable (∀ p ∈ f.processes[i]?, _))
  | .call r => inferInstanceAs (Decidable (FollowsQuery f (.call r)))
  | .leave _ | .clientPut _ _ => .isTrue trivial

def Booked (w : World) : Prop := ∃ l v, Book (fun _ => True) w.ctl l v

/-- Stored configurations stay, `latest` goes forward, and so does its version whenever it is
written. -/
structure Grows (w w' : World) : Prop where
  config : ∀ n cfg, w.config n = some cfg → w'.config n = some cfg
  latest : ∀ l v, w.ctl .latest = some ⟨.num l, v⟩ → ∃ l' v',
    w'.ctl .latest = some ⟨.num l', v'⟩ ∧ l ≤ l' ∧ v.toNat ≤ v'.toNat ∧ (v = v' → l = l')

theorem Grows.of_ctl {w w' : World} (h : w'.ctl = w.ctl) : Grows w w' where
  config n cfg hcfg := by
    rw [World.config, h]
    exact hcfg
  latest l v hl := ⟨l, v, by rw [h, hl], le_rfl, le_rfl, fun _ => rfl⟩

/-- What a controller can know of the store for good. -/
structure Lasting (P : World → Prop) : Prop where
  grows : ∀ w w', Grows w w' → P w → P w'
  ctl : ∀ w w', w'.ctl = w.ctl → P w → P w'

theorem Lasting.of_grows {P : World → Prop} (h : ∀ w w', Grows w w' → P w → P w') : Lasting P :=
  ⟨h, fun w w' hctl => h w w' (.of_ctl hctl)⟩

theorem Lasting.and {P Q : World → Prop} (hP : Lasting P) (hQ : Lasting Q) :
    Lasting fun w => P w ∧ Q w :=
  .of_grows fun w w' hg h => ⟨hP.grows w w' hg h.1, hQ.grows w w' hg h.2⟩

theorem lasting_true : Lasting fun _ => True := .of_grows fun _ _ _ _ => trivial

theorem lasting_config (n : ℕ) (cfg : ShardConfig) : Lasting fun w => w.config n = some cfg :=
  .of_grows fun _ _ hg h => hg.config n cfg h

/-- `latest` has reached the number. -/
def Reached (m : ℕ) (w : World) : Prop := ∃ l v, w.ctl .latest = some ⟨.num l, v⟩ ∧ m ≤ l

theorem lasting_reached (m : ℕ) : Lasting (Reached m) := by
  refine .of_grows fun w w' hg ⟨l, v, hl, hm⟩ => ?_
  obtain ⟨l', v', hl', hle, -, -⟩ := hg.latest l v hl
  exact ⟨l', v', hl', hm.trans hle⟩

/-- If the version is still current, so is the number that was read with it. -/
def ReadAt (v₀ : Tversion) (l₀ : ℕ) (w : World) : Prop := ∃ l v,
  w.ctl .latest = some ⟨.num l, v⟩ ∧ v₀.toNat ≤ v.toNat ∧ (v = v₀ → l = l₀)

theorem lasting_readAt (v₀ : Tversion) (l₀ : ℕ) : Lasting (ReadAt v₀ l₀) := by
  refine .of_grows fun w w' hg ⟨l, v, hl, hle, hsame⟩ => ?_
  obtain ⟨l', v', hl', -, hv, hkept⟩ := hg.latest l v hl
  refine ⟨l', v', hl', hle.trans hv, ?_⟩
  rintro rfl
  obtain rfl : v = v' := UInt64.toNat.inj (Nat.le_antisymm hv hle)
  rw [← hkept rfl]
  exact hsame rfl

def Ledgered (w : World) : Prop := ∃ l v, Ledger w.ctl l v

theorem Booked.ledgered {w : World} (hi : Booked w) : Ledgered w := by
  obtain ⟨l, v, hb⟩ := hi
  exact ⟨l, v, hb.ledger⟩

/-- What reading `latest` tells. -/
theorem Ledgered.read {w : World} (hi : Ledgered w) :
    ∃ l v, doGet w.ctl ⟨.latest⟩ = ⟨.num l, v, .ok⟩ ∧ w.latest = some l ∧ Reached l w ∧
      ReadAt v l w ∧ ∀ m, Reached m w → m ≤ l := by
  obtain ⟨l, v, hb⟩ := hi
  refine ⟨l, v, hb.doGet_latest, hb.latest_eq, ⟨l, v, hb.latest, le_rfl⟩,
    ⟨l, v, hb.latest, le_rfl, fun _ => rfl⟩, ?_⟩
  rintro m ⟨l', v', hl', hle⟩
  cases hl'.symm.trans hb.latest
  exact hle

section Writes
variable {w : World} {l n : ℕ} {v : Tversion} {new : ShardConfig}

theorem Grows.claim (hfree : w.config new.num = none) :
    Grows w { w with ctl := claimed w.ctl new } where
  config n cfg hcfg := by
    rw [World.config, storedConfig_claimed, if_neg]
    · exact hcfg
    · rintro rfl
      cases hfree.symm.trans hcfg
  latest l v hl := by
    have hkept : claimed w.ctl new .latest = some ⟨.num l, v⟩ := claimed_latest.trans hl
    exact ⟨l, v, hkept, le_rfl, le_rfl, fun _ => rfl⟩

theorem Grows.publish (hb : Ledger w.ctl l v) (hle : l ≤ n)
    (hwrap : (versionOf w.ctl .latest).toNat + 1 < UInt64.size) :
    Grows w { w with ctl := published w.ctl n v } where
  config m cfg hcfg := by
    rw [World.config, storedConfig_published]
    exact hcfg
  latest l₂ v₂ h₂ := by
    cases hb.latest.symm.trans h₂
    have hversion : versionOf w.ctl .latest = v := by simp [versionOf, hb.latest]
    rw [hversion] at hwrap
    have hadd : (v + 1).toNat = v.toNat + 1 := by
      rw [UInt64.toNat_add, UInt64.toNat_one, Nat.mod_eq_of_lt hwrap]
    exact ⟨n, v + 1, by simp [published], hle, by omega, fun h => absurd h (by simp)⟩

/-- A number is published only over the number it was read with. -/
theorem doPut_publish_cases {l₀ : ℕ} {v₀ : Tversion} (hb : Ledger w.ctl l v) (hread : ReadAt v₀ l₀ w)
    (hle : l₀ ≤ n) : (doPut w.ctl ⟨.latest, .num n, v₀⟩).1 = w.ctl ∨
      l ≤ n ∧ (doPut w.ctl ⟨.latest, .num n, v₀⟩).1 = published w.ctl n v := by
  obtain ⟨l₁, v₁, hl₁, -, hsame⟩ := hread
  cases hl₁.symm.trans hb.latest
  rw [doPut_publish hb]
  split_ifs with hv
  · obtain rfl : l = l₀ := hsame hv.symm
    exact Or.inr ⟨hle, rfl⟩
  · exact Or.inl rfl

end Writes

def sharedRules (json : Json B) (target : Option ShardConfig) : Rules World (Op.Ans (B := B)) where
  service := service json
  admits := Admitted
  inv := Booked
  rely := Grows
  guar := Grows
  issue w op := Rightful w target op

section Programs
variable {json : Json B} {target : Option ShardConfig} {w : World} {P : World → Prop}
  {old new : ShardConfig} {l m n : ℕ}

theorem Lasting.stable (h : Lasting P) : (sharedRules json target).Stable P :=
  fun w w' _ hg _ hp => h.grows w w' hg hp

theorem step_read (hP : Lasting P) {key : CtrlKey} {Q : GetReply CtrlValue → World → Prop}
    (h : ∀ w, Booked w → P w → Q (doGet w.ctl ⟨key⟩) w) :
    (sharedRules json target).Step (.get key) P Q := by
  refine .read (fun _ => rfl) (fun _ => .of_ctl rfl) hP.stable (fun _ _ _ => trivial) ?_
  intro w b r hi hp _ hr
  cases hr
  exact h w hi hp

theorem step_readPending (hP : Lasting P) {Q : GetReply CtrlValue → World → Prop}
    (h : ∀ w, Booked w → P w → (∀ l ∈ w.latest, l ≤ n) → Q (doGet w.ctl ⟨.latest⟩) w) :
    (sharedRules json target).Step (.readVersion .latest n) P Q := by
  refine .read (fun _ => rfl) (fun _ => .of_ctl rfl) hP.stable (fun _ _ _ => trivial) ?_
  intro w b r hi hp ha hr
  cases hr
  exact h w hi hp (ha.2.1 rfl n rfl)

/-- A query gives a published configuration, no older than what was known before. -/
theorem safe_queryShared (hP : Lasting P) (hm : ∀ w, Booked w → P w → Reached m w) (hw : P w) :
    (sharedRules json target).Safe
      (fun r w => ∃ cfg, r = some cfg ∧ m ≤ cfg.num ∧ P w ∧ w.config cfg.num = some cfg ∧
        Reached cfg.num w) query w := by
  refine .call P hw (step_read hP fun w hi hw => ?_)
  have hreached := hm w hi hw
  obtain ⟨l, v, hb⟩ := hi
  obtain ⟨cfg, hcfg⟩ := hb.ledger.exists_current
  have hnum : cfg.num = l := (hb.of_config hcfg).2.1
  have hml : m ≤ l := by
    obtain ⟨l', v', hl', hle⟩ := hreached
    cases hl'.symm.trans hb.latest
    exact hle
  rw [hb.ledger.doGet_latest]
  have hlasting := hP.and ((lasting_config l cfg).and (lasting_reached l))
  refine .call _ ⟨hw, hcfg, l, v, hb.latest, le_rfl⟩ (step_read hlasting fun w hi hw => ?_)
  obtain ⟨l', v', hb'⟩ := hi
  rw [hb'.ledger.doGet_config hw.2.1]
  exact ⟨cfg, rfl, hnum.ge.trans' hml, hw.1, by rw [hnum]; exact hw.2.1, by rw [hnum]; exact hw.2.2⟩

/-- What a controller knows while it moves shards. -/
structure Moving (target : Option ShardConfig) (old new : ShardConfig) (P : World → Prop) :
    Prop where
  lasting : Lasting P
  part : old = new ∨ ∀ w, P w → new.num = old.num + 1 ∧ w.config old.num = some old ∧
    w.config new.num = some new ∧ Reached old.num w ∧ ∀ t ∈ target, t = new

/-- A call to a group does nothing to the store. -/
theorem step_group (hP : Lasting P) {op : Op B} {Q : op.Ans → World → Prop}
    (hctl : ∀ w, ((service json).serve w op).2.ctl = w.ctl)
    (hissue : ∀ w, P w → Rightful w target op) (hQ : ∀ r w, P w → Q r w) :
    (sharedRules json target).Step op P Q where
  stable := hP.stable
  issue w _ hp := hissue w hp
  serve w _ _ hi hp _ _ := by
    refine ⟨?_, .of_ctl (hctl w), hP.ctl _ _ (hctl w) hp⟩
    obtain ⟨l, v, hb⟩ := hi
    exact ⟨l, v, (hctl w) ▸ hb⟩
  answer w _ r _ hp _ _ := hQ r _ (hP.ctl _ _ (hctl w) hp)

section MoveShard
variable {s : Tshid}

theorem Moving.partOf (hP : Moving target old new P) (hne : old.shards s ≠ new.shards s)
    (hw : P w) {p : ShardConfig → ShardConfig → Prop} (h : p old new) :
    PartOf w target s new.num p := by
  rcases hP.part with rfl | hpart
  · exact absurd rfl hne
  · obtain ⟨hnum, hold, hnew, -, htarget⟩ := hpart w hw
    refine ⟨by omega, old, ?_, new, hnew, hne, h, htarget⟩
    rw [hnum, Nat.add_sub_cancel]
    exact hold

theorem Moving.reached (hP : Moving target old new P) (hne : old.shards s ≠ new.shards s)
    (hw : P w) : Reached old.num w := by
  rcases hP.part with rfl | hpart
  · exact absurd rfl hne
  · exact (hpart w hw).2.2.2.1

theorem safe_queryMoving (hP : Moving target old new P) (hne : old.shards s ≠ new.shards s)
    (hw : P w) :
    (sharedRules json target).Safe (fun r w => ∃ cfg, r = some cfg ∧ P w) query w := by
  apply (safe_queryShared hP.lasting (fun w _ hw => hP.reached hne hw) hw).mono
  rintro r w ⟨cfg, hcfg, -, hw, -, -⟩
  exact ⟨cfg, hcfg, hw⟩

theorem safe_handOverShared (hP : Moving target old new P) (hne : old.shards s ≠ new.shards s)
    (hw : P w) (servers : Option (List GoString)) :
    (sharedRules json target).Safe (fun _ => P)
      (handOver (old.shards s) (new.shards s) servers s new.num) w := by
  refine .call P hw (step_group hP.lasting (fun _ => rfl) (fun w hw => hP.partOf hne hw rfl) ?_)
  intro frozen w hw
  refine .bind (safe_makeClerk _ _ ?_)
  refine .call P hw (step_group hP.lasting (fun _ => rfl) (fun w hw => hP.partOf hne hw rfl) ?_)
  intro _ w hw
  exact .call P hw
    (step_group hP.lasting (fun _ => rfl) (fun w hw => hP.partOf hne hw rfl) fun _ _ hw => hw)

/-- Whatever servers are found for the old group, the clerk talks to the old group. -/
theorem safe_withClerk (hP : Moving target old new P) (hne : old.shards s ≠ new.shards s)
    (hw : P w) {f : Tgid → Ctrl B PUnit}
    (hf : ∀ w, P w → (sharedRules json target).Safe (fun _ => P) (f (old.shards s)) w) :
    (sharedRules json target).Safe (fun _ => P)
      (do
        let servers ← getServersForGroup (old.shards s)
        let ck ← makeClerk (old.shards s) servers
        f ck) w := by
  refine .bind (.bind ((safe_queryMoving hP hne hw).mono ?_))
  rintro _ w ⟨cfg, rfl, hw⟩
  exact .bind (safe_makeClerk _ _ (hf w hw))

theorem safe_moveShard (hP : Moving target old new P) (hw : P w) :
    (sharedRules json target).Safe (fun _ => P) (moveShard old new s) w := by
  unfold moveShard
  by_cases hne : old.shards s = new.shards s
  · rw [if_pos hne]
    exact hw
  rw [if_neg hne]
  split_ifs with hboth hleft
  · refine .bind ((safe_queryMoving hP hne hw).mono ?_)
    rintro _ w ⟨cfg, rfl, hw⟩
    split_ifs
    · exact hw
    · exact safe_withClerk hP hne hw fun w hw => safe_handOverShared hP hne hw _
  · exact safe_withClerk hP hne hw fun w hw => .call P hw
      (step_group hP.lasting (fun _ => rfl) (fun w hw => hP.partOf hne hw rfl) fun _ _ hw => hw)
  · exact hw

theorem safe_moveAll (hP : Moving target old new P) (hw : P w) :
    (sharedRules json target).Safe (fun _ => P) (moveShards old new) w :=
  Rules.Safe.forM (fun _ => P) _ (fun _ _ _ _ _ hw => safe_moveShard hP hw) hw

end MoveShard

theorem safe_publishShared (hP : Lasting P) {v : Tversion}
    (hread : ∀ w, P w → ReadAt v l w ∧ ∃ cfg, w.config n = some cfg) (hln : l ≤ n) (hw : P w) :
    (sharedRules json target).Safe (fun _ => P) (publish n v) w := by
  have hserve : ∀ w : World, Booked w → P w →
      (versionOf w.ctl .latest).toNat + 1 < UInt64.size →
      Booked { w with ctl := (doPut w.ctl ⟨.latest, .num n, v⟩).1 } ∧
        Grows w { w with ctl := (doPut w.ctl ⟨.latest, .num n, v⟩).1 } := by
    rintro w ⟨l', v', hb⟩ hw hwrap
    obtain ⟨hreadAt, cfg, hcfg⟩ := hread w hw
    rcases doPut_publish_cases hb.ledger hreadAt hln with heq | ⟨hle, heq⟩ <;> rw [heq]
    · exact ⟨⟨l', v', hb⟩, .of_ctl rfl⟩
    · have hstored : storedConfig w.ctl n ≠ none := by
        intro hnone
        cases hnone.symm.trans hcfg
      exact ⟨⟨n, v' + 1, hb.publish hle hstored⟩, .publish hb.ledger hle hwrap⟩
  refine .call P hw ⟨hP.stable, fun _ _ _ => trivial, ?_, ?_⟩
  · intro w b o hi hp ha ho
    obtain ⟨hi', hg⟩ := hserve w hi hp (ha.2.2 ho rfl)
    exact ⟨hi', hg, hP.grows _ _ hg hp⟩
  · intro w b r hi hp ha _
    exact hP.grows _ _ (hserve w hi hp (ha.2.2 (by decide) rfl)).2 hp

/-- The claim was won: both configurations of the change are stored. -/
def Won (old new : ShardConfig) (w : World) : Prop :=
  w.config old.num = some old ∧ w.config new.num = some new ∧ Reached old.num w

theorem lasting_won (old new : ShardConfig) : Lasting (Won old new) :=
  (lasting_config _ _).and ((lasting_config _ _).and (lasting_reached _))

theorem safe_carryOutShared (hnum : new.num = old.num + 1) (hw : Won old new w) :
    (sharedRules json (some new)).Safe (fun _ _ => True) (carryOut old new) w := by
  refine .call _ hw (step_read (lasting_won old new) fun w hi hw => ?_)
  obtain ⟨l, v, hget, -, hl, hv, hmax⟩ := hi.ledgered.read
  have hlow := hmax _ hw.2.2
  rw [hget]
  have hlasting := (lasting_won old new).and ((lasting_reached l).and (lasting_readAt v l))
  refine .call _ ⟨hw, hl, hv⟩ (step_read hlasting fun w hi hw => ?_)
  obtain ⟨l₂, v₂, hget₂, -, -, -, hmax₂⟩ := hi.ledgered.read
  have hle := hmax₂ _ hw.2.1
  rw [hget₂]
  by_cases hover : l₂ ≥ new.num
  · simp only [CtrlValue.atoi, hover, and_true, if_true, ite_self]
    trivial
  · simp only [CtrlValue.atoi, hover, and_false, if_false]
    obtain rfl : l = old.num := by omega
    have hmoving : Moving (some new) old new fun w =>
        Won old new w ∧ Reached old.num w ∧ ReadAt v old.num w := by
      refine ⟨hlasting, Or.inr fun w hw => ⟨hnum, hw.1.1, hw.1.2.1, hw.2.1, ?_⟩⟩
      rintro t ⟨⟩
      rfl
    refine .bind ((safe_moveAll hmoving hw).mono fun _ w hw => ?_)
    have hread : ∀ w, Won old new w ∧ Reached old.num w ∧ ReadAt v old.num w →
        ReadAt v old.num w ∧ ∃ cfg, w.config new.num = some cfg :=
      fun w hw => ⟨hw.2.2, new, hw.1.2.1⟩
    exact (safe_publishShared hlasting hread (by omega) hw).mono fun _ _ _ => trivial

/-- A claim is won if it is answered by `OK`, and if it is answered by `ErrMaybe` and nothing else
is stored. -/
theorem step_claimShared (hnum : new.num = old.num + 1) :
    (sharedRules json (some new)).Step (.put ⟨.config (.num new.num), .config new, 0⟩)
      (fun w => w.config old.num = some old ∧ Reached old.num w)
      fun err => (sharedRules json (some new)).Safe (fun _ _ => True)
        (if err ≠ .ok ∧ err ≠ .errMaybe then .pure ⟨⟩ else carryOut old new) := by
  have hlasting := (lasting_config old.num old).and (lasting_reached old.num)
  have hserve : ∀ w : World, Booked w → Reached old.num w →
      Booked { w with ctl := (doPut w.ctl ⟨.config (.num new.num), .config new, 0⟩).1 } ∧
      Grows w { w with ctl := (doPut w.ctl ⟨.config (.num new.num), .config new, 0⟩).1 } := by
    rintro w ⟨l, v, hb⟩ ⟨l', v', hl', hle⟩
    cases hl'.symm.trans hb.latest
    cases hstored : storedConfig w.ctl new.num with
    | some cfg =>
      rw [doPut_claim_again hstored hb.ledger]
      exact ⟨⟨l, v, hb⟩, .of_ctl rfl⟩
    | none =>
      rw [doPut_claim hstored hb.ledger]
      exact ⟨⟨l, v, hb.claim (by omega) trivial⟩, .claim hstored⟩
  refine ⟨hlasting.stable, fun _ _ _ => trivial, ?_, ?_⟩
  · intro w b o hi hw _ _
    obtain ⟨hi', hg⟩ := hserve w hi hw.2
    exact ⟨hi', hg, hlasting.grows _ _ hg hw⟩
  · intro w b err hi hw ha hr
    obtain ⟨-, hg⟩ := hserve w hi hw.2
    obtain ⟨hold, hreached⟩ := hlasting.grows _ _ hg hw
    obtain ⟨l, v, hb⟩ := hi
    cases hstored : storedConfig w.ctl new.num with
    | none =>
      split_ifs
      · trivial
      · refine safe_carryOutShared hnum ⟨hold, ?_, hreached⟩
        change storedConfig (doPut w.ctl _).1 new.num = some new
        rw [doPut_claim hstored hb.ledger, storedConfig_claimed, if_pos rfl]
    | some cfg =>
      have herr : (if b ∧ (Err.errVersion : Err) = .errVersion then Err.errMaybe else .errVersion) =
          err := by
        have hput := doPut_claim_again hstored hb.ledger
        simpa [sharedRules, service, hput] using hr
      cases b with
      | false =>
        subst herr
        simp only [Bool.false_eq_true, false_and, if_false, ne_eq, reduceCtorEq, not_false_eq_true,
          and_self, if_true]
        trivial
      | true =>
        obtain rfl : cfg = new := ha.1 rfl rfl (new.num, new) rfl cfg hstored
        split_ifs
        · trivial
        · refine safe_carryOutShared hnum ⟨hold, ?_, hreached⟩
          exact hg.config cfg.num cfg hstored

theorem safe_changeShared (hnum : new.num = m + 1) (hw : Reached m w) :
    (sharedRules json (some new)).Safe (fun _ _ => True) (changeConfigTo new) w := by
  refine .bind ((safe_queryShared (lasting_reached m) (fun _ _ h => h) hw).mono ?_)
  rintro _ w ⟨old, rfl, hm, -, hold, hreached⟩
  change Rules.Safe _ _ (if old.num ≥ new.num then _ else _) w
  split_ifs with hover
  · trivial
  · exact .call _ ⟨hold, hreached⟩ (step_claimShared (by omega))

/-- What the search has found is stored, and `latest` is at most one behind. -/
def Found (found : ℕ × CtrlValue) (w : World) : Prop :=
  found.1 = 0 ∨ ∃ cfg, found.2 = .config cfg ∧ w.config found.1 = some cfg ∧ Reached (found.1 - 1) w

theorem lasting_found (found : ℕ × CtrlValue) : Lasting (Found found) := by
  refine .of_grows fun w w' hg h => h.imp_right ?_
  rintro ⟨cfg, hval, hcfg, hreached⟩
  exact ⟨cfg, hval, hg.config _ _ hcfg, (lasting_reached _).grows _ _ hg hreached⟩

theorem safe_findPending (l : ℕ) (is : List ℕ) {found : ℕ × CtrlValue} (hw : Found found w) :
    (sharedRules json target).Safe Found (findPending l is found) w := by
  induction is generalizing found w with
  | nil => exact hw
  | cons i is ih =>
    refine .call _ hw (step_read (lasting_found found) fun w hi hw => ?_)
    obtain ⟨l', v, hb⟩ := hi
    cases hstored : storedConfig w.ctl (l + i) with
    | none =>
      simp only [hb.ledger.doGet_missing hstored, reduceCtorEq, if_false]
      exact hw
    | some cfg =>
      rw [hb.ledger.doGet_config hstored]
      refine ih (Or.inr ⟨cfg, rfl, hstored, l', v, hb.latest, ?_⟩)
      have := (hb.of_config hstored).1
      omega

theorem safe_recoverShared (hnew : w.config n = some new) (hw : Reached (n - 1) w) :
    (sharedRules json none).Safe (fun _ _ => True) (recover n new) w := by
  have hlasting := (lasting_config n new).and (lasting_reached (n - 1))
  refine .bind ((safe_queryShared (m := n - 1) hlasting (fun _ _ h => h.2) ⟨hnew, hw⟩).mono ?_)
  rintro _ w ⟨old, rfl, hlow, ⟨hnew, -⟩, hold, hreached⟩
  have hlasting := (lasting_config n new).and ((lasting_config old.num old).and
    (lasting_reached old.num))
  refine .call _ ⟨hnew, hold, hreached⟩ (step_readPending hlasting fun w hi hw hpast => ?_)
  obtain ⟨l, v, hget, hlatest, hl, hv, hmax⟩ := hi.ledgered.read
  have hle : l ≤ n := hpast l hlatest
  have hge := hmax _ hw.2.2
  have hnum : new.num = n := by
    obtain ⟨l', v', hb⟩ := hi
    exact (hb.of_config hw.1).2.1
  rw [hget]
  have hlasting := hlasting.and (lasting_readAt v l)
  have hmoving : Moving none old new fun w => (w.config n = some new ∧
      w.config old.num = some old ∧ Reached old.num w) ∧ ReadAt v l w := by
    refine ⟨hlasting, ?_⟩
    -- the old configuration is the one before, or the change was completed meanwhile
    rcases eq_or_ne old.num n with heq | hne
    · left
      have hsame := hw.2.1
      rw [heq, hw.1] at hsame
      exact (Option.some.inj hsame).symm
    · right
      intro w hw
      exact ⟨by omega, hw.1.2.1, hnum ▸ hw.1.1, hw.1.2.2, nofun⟩
  refine .bind ((safe_moveAll hmoving ⟨hw, hv⟩).mono fun _ w hw => ?_)
  refine (safe_publishShared hlasting ?_ hle hw).mono fun _ _ _ => trivial
  exact fun w hw => ⟨hw.2, new, hw.1.1⟩

theorem safe_initShared : (sharedRules json none).Safe (fun _ _ => True) initController w := by
  refine .call _ trivial (step_read lasting_true fun w hi _ => ?_)
  obtain ⟨l, v, hget, -⟩ := hi.ledgered.read
  rw [hget]
  refine .bind ((safe_findPending l _ (Or.inl rfl)).mono fun found w hfound => ?_)
  split_ifs with hzero
  · trivial
  · obtain ⟨cfg, hval, hcfg, hreached⟩ := hfound.resolve_left hzero
    rw [hval]
    exact safe_recoverShared hcfg hreached

/-- What a call of `Query` returns has been published. -/
theorem safe_callQuery : (sharedRules json none).Safe (fun r w => ∀ cfg ∈ r, Reached cfg.num w)
    query w := by
  have hzero : ∀ w, Booked w → True → Reached 0 w := by
    intro w hi _
    obtain ⟨l, v, -, -, ⟨l', v', hl', -⟩, -⟩ := hi.ledgered.read
    exact ⟨l', v', hl', Nat.zero_le _⟩
  apply (safe_queryShared lasting_true hzero trivial).mono
  rintro _ w ⟨cfg, rfl, -, -, -, hreached⟩ _ ⟨⟩
  exact hreached

end Programs

section Runs
variable {json : Json B} {w w' : World} {p : Process B}

/-- The process keeps to the rules from here on. -/
def Process.Heeds (json : Json B) (w : World) (p : Process B) : Prop :=
  (sharedRules json p.request.target).Safe (fun r w => ∀ cfg ∈ r, Reached cfg.num w) p.run.prog w

/-- What other processes and clients do disturbs nobody. -/
theorem Process.Heeds.grows (h : p.Heeds json w) (hi : Booked w) (hi' : Booked w')
    (hg : Grows w w') : p.Heeds json w' := by
  refine Rules.Safe.stable (fun r => ?_) p.run.prog w w' hi hg hi' h
  intro w w' _ hg _ hr cfg hcfg
  exact (lasting_reached cfg.num).grows w w' hg (hr cfg hcfg)

theorem Process.Heeds.reached_answer (h : p.Heeds json w) {cfg : ShardConfig}
    (hcfg : cfg ∈ p.answer) : Reached cfg.num w := by
  unfold Process.answer at hcfg
  split at hcfg
  case h_1 r hr =>
    rw [Process.Heeds, hr] at h
    exact h cfg hcfg
  case h_2 => cases hcfg

structure AllHeed (json : Json B) (f : Fleet B) : Prop where
  booked : Booked f.world
  heeds : ∀ p ∈ f.processes, p.Heeds json f.world

theorem AllHeed.heeds_start {f : Fleet B} (h : AllHeed json f) {r : Request}
    (hg : FollowsQuery f (.call r)) : (Process.start r).Heeds json f.world := by
  have hnone : ∀ w : World, ∀ cfg ∈ (none : Option ShardConfig), Reached cfg.num w :=
    fun w cfg hcfg => nomatch hcfg
  cases r with
  | initController => exact .bind (safe_initShared.mono fun _ w _ => hnone w)
  | query => exact safe_callQuery
  | changeConfigTo new =>
    obtain ⟨p, hp, cfg, hcfg, hnum⟩ := hg
    have hreached := (h.heeds p hp).reached_answer hcfg
    exact .bind ((safe_changeShared hnum hreached).mono fun _ w _ => hnone w)

theorem AllHeed.step {f f' : Fleet B} {a : FleetAction} (h : AllHeed json f) (hg : Careful f a)
    (hs : f.step json a = some f') : AllHeed json f' := by
  cases a with
  | call r =>
    cases hs
    refine ⟨h.booked, fun p hp => ?_⟩
    rcases List.mem_append.mp hp with hp | hp
    · exact h.heeds p hp
    · rw [List.mem_singleton.mp hp]
      exact h.heeds_start hg
  | attempt i o =>
    obtain ⟨p, run, w', hp, hr, rfl⟩ := Fleet.step_attempt hs
    have hheeds := h.heeds p (List.mem_of_getElem? hp)
    have hattempt : p.run.attempt (sharedRules json p.request.target).service o f.world =
      some (run, w') := hr
    have hrefl : Grows f.world f.world := .of_ctl rfl
    obtain ⟨hi, hgrows, hheeds'⟩ :=
      Rules.Safe.attempt h.booked hrefl hheeds (hg p hp) hattempt
    refine ⟨hi, fun p₂ hp₂ => ?_⟩
    rcases List.mem_or_eq_of_mem_set hp₂ with hp₂ | rfl
    · exact (h.heeds p₂ hp₂).grows h.booked hi hgrows
    · exact hheeds'
  | leave i =>
    rw [Fleet.step_leave hs]
    exact ⟨h.booked, fun p hp => h.heeds p (List.mem_of_mem_eraseIdx hp)⟩
  | clientPut gid args =>
    cases hs
    exact ⟨h.booked, fun p hp => (h.heeds p hp).grows h.booked h.booked (.of_ctl rfl)⟩

/-- In every run whose attempts are all admitted, a process that is about to freeze, install or
delete a shard with number `N` moves it as the configurations stored under `N - 1` and `N` say. -/
theorem rightful_of_careful {first : ShardConfig} (f : Fleet B)
    (h : Reaches (Fleet.step json) Careful (Fleet.init json first) f) (p : Process B)
    (hp : p ∈ f.processes) (op : Op B) (hop : op ∈ p.run.prog.head) :
    Rightful f.world p.request.target op := by
  have hinit : AllHeed json (Fleet.init json first) :=
    ⟨⟨first.num, 1, (book_init json trivial).1⟩, nofun⟩
  have hkept : ∀ f a f', AllHeed json f → Careful f a → Fleet.step json f a = some f' →
      AllHeed json f' := fun f a f' hf hg hs => hf.step hg hs
  have hall := h.invariant hinit hkept
  exact Rules.Safe.issue hall.booked (hall.heeds p hp) hop

/-- Two controllers want number 2. The first has won the claim and is about to freeze shard 0; the
claim of the second was answered by `ErrVersion`. -/
theorem rightful_of_careful_freeze : ∃ (f : Fleet Entries) (p : Process Entries),
    Reaches (Fleet.step plainJson) Careful (Fleet.init plainJson (twoGroups 1 1)) f ∧
      p ∈ f.processes ∧ p.request.target = some (twoGroups 2 2) ∧ f.processes.length = 3 ∧
      p.run.prog.head = some (.freezeShard 1 ⟨0, 2⟩) ∧
      Rightful f.world p.request.target (.freezeShard (B := Entries) 1 ⟨0, 2⟩) := by
  obtain ⟨f, hreach, hlen, p, hp, htarget, hop⟩ :=
    exists_reaches (Fleet.step plainJson) Careful (Fleet.init plainJson (twoGroups 1 1))
      ([[.call .query], List.replicate 2 (.attempt 0 .answered),
        [.call (.changeConfigTo (twoGroups 2 2)), .call (.changeConfigTo (twoGroups 2 1))],
        List.replicate 3 (.attempt 1 .answered), List.replicate 3 (.attempt 2 .answered),
        List.replicate 6 (.attempt 1 .answered)] : List (List FleetAction)).flatten
      (fun f => f.processes.length = 3 ∧ ∃ p ∈ f.processes,
        p.request.target = some (twoGroups 2 2) ∧
          p.run.prog.head = some (.freezeShard 1 ⟨0, 2⟩))
      ⟨_, by rfl, by rfl, _, .tail _ (.head _), by rfl, by rfl⟩
  exact ⟨f, p, hreach, hp, htarget, hlen, hop, rightful_of_careful f hreach p hp _ hop⟩

/-- Two controllers want number 2. The claim of the first gets lost, the second claims the number
for a configuration that moves nothing, and the first, whose resent claim is answered by
`ErrMaybe`, goes on to freeze shard 0. -/
theorem shard_moved_against_config : ∃ (f : Fleet Entries) (p : Process Entries),
    Reaches (Fleet.step plainJson) FollowsQuery (Fleet.init plainJson (twoGroups 1 1)) f ∧
      p ∈ f.processes ∧ p.request.target = some (twoGroups 2 2) ∧
      f.world.config 2 = some (twoGroups 2 1) ∧
      p.run.prog.head = some (.freezeShard 1 ⟨0, 2⟩) ∧
      ¬Rightful f.world p.request.target (.freezeShard (B := Entries) 1 ⟨0, 2⟩) := by
  obtain ⟨f, hreach, hconfig, p, hp, htarget, hop⟩ :=
    exists_reaches (Fleet.step plainJson) FollowsQuery (Fleet.init plainJson (twoGroups 1 1))
      ([[.call .initController, .call .query, .call .initController, .call .query],
        List.replicate 2 (.attempt 0 .answered), List.replicate 2 (.attempt 1 .answered),
        List.replicate 2 (.attempt 2 .answered), List.replicate 2 (.attempt 3 .answered),
        [.call (.changeConfigTo (twoGroups 2 2)), .call (.changeConfigTo (twoGroups 2 1))],
        List.replicate 2 (.attempt 4 .answered), [.attempt 4 .requestLost],
        List.replicate 3 (.attempt 5 .answered),
        List.replicate 7 (.attempt 4 .answered)] : List (List FleetAction)).flatten
      (fun f => f.world.config 2 = some (twoGroups 2 1) ∧ ∃ p ∈ f.processes,
        p.request.target = some (twoGroups 2 2) ∧
          p.run.prog.head = some (.freezeShard 1 ⟨0, 2⟩))
      ⟨_, by rfl, by rfl, _, .tail _ (.tail _ (.tail _ (.tail _ (.head _)))), by rfl, by rfl⟩
  refine ⟨f, p, hreach, hp, htarget, hconfig, hop, ?_⟩
  rintro ⟨-, old, -, new, hnew, -, -, hown⟩
  cases hconfig.symm.trans hnew
  rw [htarget] at hown
  exact absurd (hown _ rfl) (by decide)

end Runs

end DistributedLabs.ShardKv
