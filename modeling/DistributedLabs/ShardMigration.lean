import DistributedLabs.ShardStages

/-!
# Controllers one after another

Controllers that run one at a time may crash between any two calls, and the next
one finishes what it finds. The invariant is the stage of every shard in the
pending change. A controller is verified against the interference of clients: it
knows the store, because nobody else writes it, and of the groups it knows the
configuration numbers it has made them see.
-/

namespace DistributedLabs.ShardKv
open Kv RpcPrograms TransitionRuns

/-- The group in which a shard is to be: that of the next configuration, if there is one. -/
def World.goal (w : World) (l : ℕ) (old : ShardConfig) (s : Tshid) : Tgid :=
  ((w.config (l + 1)).map fun new => new.shards s).getD (old.shards s)

structure Sound (text : GoString → Prop) (w : World) (l : ℕ) (v : Tversion) (old : ShardConfig) : Prop where
  book : Book WellFormed w.ctl l v
  config : w.config l = some old
  known : w.Known text
  stage : ∀ s, w.Stage l s (old.shards s) (w.goal l old s)

def Intact (text : GoString → Prop) (w : World) : Prop := ∃ l v old, Sound text w l v old

section Invariant
variable {text : GoString → Prop} {w w' : World} {l : ℕ} {v : Tversion} {old new : ShardConfig} {s : Tshid}

theorem Sound.advance (h : Sound text w l v old)
    (ha : Advance text l s (old.shards s) (w.goal l old s) w w') : Sound text w' l v old := by
  have hgoal : w'.goal l old = w.goal l old := by
    unfold World.goal World.config
    rw [ha.ctl]
  refine ⟨ha.ctl ▸ h.book, ?_, ha.known, fun s' => ?_⟩
  · rw [World.config, ha.ctl]
    exact h.config
  · rw [hgoal]
    rcases eq_or_ne s' s with rfl | hs
    · exact ha.stage
    · exact (ha.others s' hs).stage (h.stage s')

/-- A client's `Put`, routed by some answer of `Query`. -/
def ClientStep (text : GoString → Prop) (w w' : World) : Prop :=
  ∃ gid a, w.Routed (key2Shard a.key) gid ∧ (text a.key ∧ text a.value) ∧ w' = w.clientPut gid a

/-- Clients leave the store and the marks of the groups alone. -/
structure SameMarks (w w' : World) : Prop where
  ctl : w'.ctl = w.ctl
  maxShardNum : ∀ g, (w'.group g).maxShardNum = (w.group g).maxShardNum
  migratedShards : ∀ g, (w'.group g).migratedShards = (w.group g).migratedShards

theorem ClientStep.cases (hs : ClientStep text w w') :
    w' = w ∨ ∃ gid a, w.Routed (key2Shard a.key) gid ∧ (w.group gid).Accepts (key2Shard a.key) ∧
      (doPut (w.group gid).keyValue a).2.err = .ok ∧ (text a.key ∧ text a.value) ∧
      w' = w.written gid a := by
  obtain ⟨gid, a, hr, htext, rfl⟩ := hs
  rcases (w.group gid).accepts_or_turnsAway (key2Shard a.key) with ha | ht
  · rcases clientPut_of_accepts ha with he | ⟨hok, he⟩
    · exact Or.inl he
    · exact Or.inr ⟨gid, a, hr, ha, hok, htext, he⟩
  · exact Or.inl (clientPut_of_turnsAway ht)

theorem ClientStep.sameMarks (hs : ClientStep text w w') : SameMarks w w' := by
  rcases hs.cases with rfl | ⟨gid, a, -, -, -, -, rfl⟩
  · exact ⟨rfl, fun _ => rfl, fun _ => rfl⟩
  · exact ⟨rfl, by simp, by simp⟩

/-- `Query` may have given the answers that it may have given before. -/
def RoutesKept (w w' : World) : Prop := ∀ s g, w.Routed s g → w'.Routed s g

theorem RoutesKept.of_ctl (h : w'.ctl = w.ctl) : RoutesKept w w' := by
  intro s g hr
  unfold World.Routed World.latest World.config at hr ⊢
  rw [h]
  exact hr

theorem RoutesKept.of_book {good : ShardConfig → Prop} {l' : ℕ} {v' : Tversion}
    (hb : Book good w.ctl l v) (hb' : Book good w'.ctl l' v') (hl : l ≤ l')
    (hc : ∀ m ≤ l, w'.config m = w.config m) : RoutesKept w w' := by
  intro s g hr
  obtain ⟨m, cfg, hm, hcfg, hg⟩ := (hb.ledger.routed_iff s g).mp hr
  exact (hb'.ledger.routed_iff s g).mpr ⟨m, cfg, hm.trans hl, (hc m hm).trans hcfg, hg⟩

theorem Sound.client (h : Sound text w l v old) (hs : ClientStep text w w') : Sound text w' l v old := by
  rcases hs.cases with rfl | ⟨gid, a, hr, ha, hok, htext, rfl⟩
  · exact h
  · refine ⟨h.book, h.config, ?_, fun s => (h.stage s).written hr ha⟩
    exact h.known.written ((h.stage _).serves hr ha) hok htext

/-- The store while the change from `old` to `new` is pending. -/
structure Change (ctl : KeyValue CtrlKey CtrlValue) (l : ℕ) (v : Tversion)
    (old new : ShardConfig) : Prop where
  book : Book WellFormed ctl l v
  old : storedConfig ctl l = some old
  new : storedConfig ctl (l + 1) = some new

variable {ctl : KeyValue CtrlKey CtrlValue}

theorem Change.num (hc : Change ctl l v old new) : new.num = l + 1 := (hc.book.of_config hc.new).2.1

theorem Book.unique {good : ShardConfig → Prop} {l' : ℕ} {v' : Tversion} (h : Book good ctl l v)
    (h' : Book good ctl l' v') : l' = l ∧ v' = v := by
  have he := h'.latest.symm.trans h.latest
  cases he
  exact ⟨rfl, rfl⟩

theorem Intact.sound (hi : Intact text w) (hb : Book WellFormed w.ctl l v) (hold : w.config l = some old) :
    Sound text w l v old := by
  obtain ⟨l', v', old', h⟩ := hi
  obtain ⟨rfl, rfl⟩ := hb.unique h.book
  cases hold.symm.trans h.config
  exact h

theorem Change.sound (hc : Change ctl l v old new) (hi : Intact text w) (hw : w.ctl = ctl) :
    Sound text w l v old ∧ w.goal l old = new.shards := by
  subst hw
  refine ⟨hi.sound hc.book hc.old, ?_⟩
  funext s
  simp [World.goal, World.config, hc.new]

/-- The shard stays where it is, or its move is over. -/
def Done (old new : ShardConfig) (s : Tshid) (w : World) : Prop :=
  old.shards s = new.shards s ∨
    (w.group (old.shards s)).maxShardNum s = some new.num ∧
    (w.group (new.shards s)).maxShardNum s = some new.num ∧
    (w.group (old.shards s)).migratedShards s = true

theorem Done.sameMarks (h : Done old new s w) (hm : SameMarks w w') : Done old new s w' := by
  unfold Done
  rw [hm.maxShardNum, hm.maxShardNum, hm.migratedShards]
  exact h

theorem Done.sameShard (h : Done old new s w) (hs : SameShard s w w') : Done old new s w' := by
  unfold Done
  rw [hs.maxShardNum, hs.maxShardNum, hs.migratedShards]
  exact h

/-- A claimed configuration is the start of a change. -/
theorem Sound.claim (h : Sound text w l v old) (hnone : w.config (l + 1) = none) (hnum : new.num = l + 1)
    (hnew : WellFormed new) : Sound text { w with ctl := claimed w.ctl new } l v old := by
  have hbook : Book WellFormed (claimed w.ctl new) l v := h.book.claim hnum.le hnew
  have hconfig : ∀ m, m ≤ l → storedConfig (claimed w.ctl new) m = w.config m := by
    intro m hm
    rw [storedConfig_claimed, if_neg (by omega)]
    rfl
  refine ⟨hbook, (hconfig l le_rfl).trans h.config, ⟨h.known.copies, h.known.strings⟩, fun s => ?_⟩
  have hrouted : ∀ g, World.Routed { w with ctl := claimed w.ctl new } s g → w.Routed s g := by
    intro g hr
    obtain ⟨m, cfg, hm, hcfg, hg⟩ := (hbook.ledger.routed_iff s g).mp hr
    exact (h.book.ledger.routed_iff s g).mpr ⟨m, cfg, hm, (hconfig m hm).symm.trans hcfg, hg⟩
  have hgoal : w.goal l old s = old.shards s := by simp [World.goal, hnone]
  have hstage := h.stage s
  rw [hgoal] at hstage
  cases hstage with
  | rest serves fresh away =>
    exact .rest ⟨serves.accepts, serves.holds⟩ fresh fun g hr hg => away g (hrouted g hr) hg
  | frozen differ => exact absurd rfl differ
  | moved differ => exact absurd rfl differ

/-- When every shard is done the next configuration can be published. -/
theorem Change.publish (hc : Change ctl l v old new) (hi : Intact text w) (hw : w.ctl = ctl)
    (hdone : ∀ s, Done old new s w) :
    Sound text { w with ctl := published ctl (l + 1) v } (l + 1) (v + 1) new := by
  obtain ⟨hsound, hgoal⟩ := hc.sound hi hw
  have hbook : Book WellFormed (published ctl (l + 1) v) (l + 1) (v + 1) :=
    hc.book.publish (Nat.le_succ l) (by simp [hc.new])
  refine ⟨hbook, ?_, ⟨hsound.known.copies, hsound.known.strings⟩, fun s => ?_⟩
  · rw [World.config, storedConfig_published, hc.new]
  -- a group that some published configuration names is the new group or was named before
  have hrouted : ∀ g, World.Routed { w with ctl := published ctl (l + 1) v } s g →
      g ≠ new.shards s → w.Routed s g := by
    intro g hr hg
    obtain ⟨m, cfg, hm, hcfg, rfl⟩ := (hbook.ledger.routed_iff s g).mp hr
    rw [World.config, storedConfig_published] at hcfg
    refine (hsound.book.ledger.routed_iff s _).mpr ⟨m, cfg, ?_, ?_, rfl⟩
    · rcases hm.lt_or_eq with hlt | rfl
      · exact Nat.lt_succ_iff.mp hlt
      · cases hc.new.symm.trans hcfg
        exact absurd rfl hg
    · rw [World.config, hw]
      exact hcfg
  have hstage := hsound.stage s
  rw [hgoal] at hstage
  cases hstage with
  | rest serves fresh away =>
    have hsame : old.shards s = new.shards s := by
      rcases hdone s with heq | ⟨hnum, -, -⟩
      · exact heq
      · rw [hc.num] at hnum
        exact absurd (fresh _ _ hnum) (Nat.lt_irrefl _)
    rw [hsame] at serves away
    exact .rest ⟨serves.accepts, serves.holds⟩ (fun g m hm => (fresh g m hm).trans (Nat.lt_succ_self _))
      fun g hr hg => away g (hrouted g hr hg) hg
  | frozen differ num closed here holds fresh away =>
    rcases hdone s with heq | ⟨-, hnum, -⟩
    · exact absurd heq differ
    · rw [hc.num] at hnum
      exact absurd (fresh _ differ.symm _ hnum) (Nat.lt_irrefl _)
  | moved differ num num' closed serves fresh away =>
    have hgone : (w.group (old.shards s)).migratedShards s = true := by
      rcases hdone s with heq | ⟨-, -, hgone⟩
      · exact absurd heq differ
      · exact hgone
    refine .rest ⟨serves.accepts, serves.holds⟩ (fun g m hm => ?_) fun g hr hg => ?_
    · rcases eq_or_ne g (old.shards s) with rfl | hsrc
      · cases num.symm.trans hm
        exact Nat.lt_succ_self _
      · rcases eq_or_ne g (new.shards s) with rfl | hdst
        · cases num'.symm.trans hm
          exact Nat.lt_succ_self _
        · exact (fresh g hsrc hdst m hm).trans (Nat.lt_succ_self _)
    · rcases eq_or_ne g (old.shards s) with rfl | hsrc
      · exact hgone
      · exact away g (hrouted g hr hg) hsrc hg

end Invariant

/-- A controller among clients. -/
def migrationRules {B : Type} (json : Json B) (text : GoString → Prop) : Rules World (Op.Ans (B := B)) where
  service := service json
  admits _ _ _ _ := True
  inv := Intact text
  rely := ClientStep text
  guar := RoutesKept
  issue _ _ := True

section Programs
variable {B : Type} {json : Json B} {text : GoString → Prop} {w : World} {l : ℕ} {v : Tversion}
  {old new : ShardConfig} {ctl : KeyValue CtrlKey CtrlValue} {P : World → Prop}

theorem stable_of_sameMarks (h : ∀ w w', SameMarks w w' → P w → P w') :
    (migrationRules json text).Stable P := fun w w' _ hs _ hp => h w w' hs.sameMarks hp

theorem step_get (hP : (migrationRules json text).Stable P) {key : CtrlKey}
    {Q : GetReply CtrlValue → World → Prop} (h : ∀ w, P w → Q (doGet w.ctl ⟨key⟩) w) :
    (migrationRules json text).Step (.get key) P Q := by
  refine .read (fun _ => rfl) (fun _ => .of_ctl rfl) hP (fun _ _ _ => trivial) ?_
  intro w b r _ hp _ hr
  cases hr
  exact h w hp

theorem step_readVersion (hP : (migrationRules json text).Stable P) {key : CtrlKey} {pending : ℕ}
    {Q : GetReply CtrlValue → World → Prop} (h : ∀ w, P w → Q (doGet w.ctl ⟨key⟩) w) :
    (migrationRules json text).Step (.readVersion key pending) P Q := by
  refine .read (fun _ => rfl) (fun _ => .of_ctl rfl) hP (fun _ _ _ => trivial) ?_
  intro w b r _ hp _ hr
  cases hr
  exact h w hp

theorem safe_query (hP : (migrationRules json text).Stable P) (hctl : ∀ w, P w → w.ctl = ctl)
    (hb : Book WellFormed ctl l v) (hold : storedConfig ctl l = some old) (hw : P w) :
    (migrationRules json text).Safe (fun r w => r = some old ∧ P w) query w :=
  safe_query_at (fun _ _ h => step_get hP h) hctl hb.ledger hold hw

/-- What a controller knows in the middle of its loop over the shards. -/
def Progress (ctl : KeyValue CtrlKey CtrlValue) (old new : ShardConfig) (done : List Tshid)
    (w : World) : Prop := w.ctl = ctl ∧ ∀ s ∈ done, Done old new s w

theorem stable_progress (json : Json B) (text : GoString → Prop) (done : List Tshid) :
    (migrationRules json text).Stable (Progress ctl old new done) :=
  stable_of_sameMarks fun _ _ hm h => ⟨hm.ctl.trans h.1, fun s hs => (h.2 s hs).sameMarks hm⟩

theorem Progress.advance {done : List Tshid} {s : Tshid} {src dst : Tgid} {w' : World}
    (h : Progress ctl old new done w) (hs : s ∉ done) (ha : Advance text l s src dst w w') :
    Progress ctl old new done w' := by
  refine ⟨ha.ctl.trans h.1, fun s' hs' => (h.2 s' hs').sameShard (ha.others s' ?_)⟩
  rintro rfl
  exact hs hs'

/-- While the old group has frozen a shard and the new one has not got it, nobody writes it. -/
theorem ClientStep.slice_eq (hc : Change ctl l v old new) (hi : Intact text w) (hw : w.ctl = ctl)
    {s : Tshid} {w' : World} (hs : ClientStep text w w')
    (hnum : (w.group (old.shards s)).maxShardNum s = some (l + 1)) :
    (w.group (new.shards s)).maxShardNum s = some (l + 1) ∨ w'.slice s = w.slice s := by
  obtain ⟨hsound, hgoal⟩ := hc.sound hi hw
  rcases hs.cases with rfl | ⟨gid, a, hr, ha, -, -, rfl⟩
  · exact Or.inr rfl
  have hstage := hsound.stage s
  rw [hgoal] at hstage
  cases hstage with
  | rest serves fresh away => exact absurd (fresh _ _ hnum) (Nat.lt_irrefl _)
  | moved differ num num' closed serves fresh away => exact Or.inl num'
  | frozen differ num closed here holds fresh away =>
    right
    have hother : s ≠ key2Shard a.key := by
      rintro rfl
      rcases eq_or_ne gid (old.shards (key2Shard a.key)) with rfl | hg
      · exact ha.not_turnsAway (Or.inr closed)
      · exact ha.not_turnsAway (Or.inl (away gid hr hg))
    funext key
    unfold World.slice
    split_ifs with hkey
    · exact (sameShard_written hother).truth key hkey
    · rfl

/-- The stage in which a controller finds a shard, and that a call may take it further. -/
theorem Change.find (hc : Change ctl l v old new) (hi : Intact text w) (hw : w.ctl = ctl) (s : Tshid) :
    w.Known text ∧ w.Stage l s (old.shards s) (new.shards s) ∧
      ∀ w', Advance text l s (old.shards s) (new.shards s) w w' → Intact text w' := by
  obtain ⟨hsound, hgoal⟩ := hc.sound hi hw
  have hstage := hsound.stage s
  rw [hgoal] at hstage
  refine ⟨hsound.known, hstage, fun w' ha => ⟨l, v, old, hsound.advance (s := s) ?_⟩⟩
  rw [hgoal]
  exact ha

section HandOver

/-- After the freeze: what was handed out is the shard, unless it is installed already. -/
def Carried (ctl : KeyValue CtrlKey CtrlValue) (l : ℕ) (old new : ShardConfig) (s : Tshid)
    (done : List Tshid) (json : Json B) (state : Option B) (w : World) : Prop :=
  Progress ctl old new done w ∧ (w.group (old.shards s)).maxShardNum s = some (l + 1) ∧
    ((w.group (new.shards s)).maxShardNum s = some (l + 1) ∨
      state.bind json.unmarshal = some (w.slice s))

/-- After the install. -/
def Taken (ctl : KeyValue CtrlKey CtrlValue) (l : ℕ) (old new : ShardConfig) (s : Tshid)
    (done : List Tshid) (w : World) : Prop :=
  Progress ctl old new done w ∧ (w.group (old.shards s)).maxShardNum s = some (l + 1) ∧
    (w.group (new.shards s)).maxShardNum s = some (l + 1)

variable {s : Tshid} {done : List Tshid}

theorem stable_carried (hc : Change ctl l v old new) (state : Option B) :
    (migrationRules json text).Stable (Carried ctl l old new s done json state) := by
  rintro w w' hi hs hi' ⟨hp, hnum, hstate⟩
  have hm := hs.sameMarks
  refine ⟨stable_progress json text done w w' hi hs hi' hp, ?_, ?_⟩
  · rw [hm.maxShardNum]
    exact hnum
  · rw [hm.maxShardNum]
    rcases hs.slice_eq hc hi hp.1 hnum with hnum' | heq
    · exact Or.inl hnum'
    · rw [heq]
      exact hstate

theorem stable_taken : (migrationRules json text).Stable (Taken ctl l old new s done) := by
  rintro w w' hi hs hi' ⟨hp, hnum, hnum'⟩
  have hm := hs.sameMarks
  exact ⟨stable_progress json text done w w' hi hs hi' hp, by rw [hm.maxShardNum, hnum],
    by rw [hm.maxShardNum, hnum']⟩

theorem step_freezeShard (hrt : json.RoundTrips text) (hc : Change ctl l v old new) (hs : s ∉ done)
    (hne : old.shards s ≠ new.shards s) :
    (migrationRules json text).Step (.freezeShard (old.shards s) ⟨s, l + 1⟩) (Progress ctl old new done)
      fun frozen => Carried ctl l old new s done json frozen.state := by
  refine ⟨stable_progress json text done, fun _ _ _ => trivial, ?_, ?_⟩
  · intro w b o hi hp _ _
    obtain ⟨hk, hstage, hinv⟩ := hc.find hi hp.1 s
    have hadv := (hstage.freezeShard hrt hk hne).1
    exact ⟨hinv _ hadv, .of_ctl rfl, hp.advance hs hadv⟩
  · intro w b frozen hi hp _ hr
    obtain ⟨hk, hstage, -⟩ := hc.find hi hp.1 s
    obtain ⟨hadv, hnum, hstate⟩ := hstage.freezeShard hrt hk hne
    obtain rfl : ((w.group (old.shards s)).doFreezeShard json ⟨s, l + 1⟩).2 = frozen := by
      have hreply : (if ((w.group (old.shards s)).doFreezeShard json ⟨s, l + 1⟩).2.err = .ok then
          some ((w.group (old.shards s)).doFreezeShard json ⟨s, l + 1⟩).2 else none) =
            some frozen := hr
      split_ifs at hreply
      exact Option.some.inj hreply
    refine ⟨hp.advance hs hadv, ?_, ?_⟩
    · change (World.group (World.setGroup _ _ _) _).maxShardNum s = _
      rw [group_setGroup]
      exact hnum
    · change (World.group (World.setGroup _ _ _) _).maxShardNum s = _ ∨ _
      rw [group_setGroup_of_ne w _ hne.symm]
      exact hstate

theorem step_installShard (hc : Change ctl l v old new) (hs : s ∉ done)
    (hne : old.shards s ≠ new.shards s) (state : Option B) :
    (migrationRules json text).Step (.installShard (new.shards s) ⟨s, state, l + 1⟩)
      (Carried ctl l old new s done json state) fun _ => Taken ctl l old new s done := by
  have hserve : ∀ w, Intact text w → Carried ctl l old new s done json state w →
      Intact text ((service json).serve w (.installShard (new.shards s) ⟨s, state, l + 1⟩)).2 ∧
      Taken ctl l old new s done
        ((service json).serve w (.installShard (new.shards s) ⟨s, state, l + 1⟩)).2 := by
    rintro w hi ⟨hp, hnum, hstate⟩
    obtain ⟨hk, hstage, hinv⟩ := hc.find hi hp.1 s
    obtain ⟨hadv, hnum'⟩ := hstage.installShard hk hnum hstate
    refine ⟨hinv _ hadv, hp.advance hs hadv, ?_, ?_⟩
    · change (World.group (World.setGroup _ _ _) _).maxShardNum s = _
      rw [group_setGroup_of_ne w _ hne]
      exact hnum
    · change (World.group (World.setGroup _ _ _) _).maxShardNum s = _
      rw [group_setGroup]
      exact hnum'
  refine ⟨stable_carried hc state, fun _ _ _ => trivial, ?_, ?_⟩
  · intro w b o hi hp _ _
    obtain ⟨hi', hp', hnum, hnum'⟩ := hserve w hi hp
    exact ⟨hi', .of_ctl rfl, hp', hnum, Or.inl hnum'⟩
  · exact fun w b r hi hp _ _ => (hserve w hi hp).2

theorem step_deleteShard (hc : Change ctl l v old new) (hs : s ∉ done)
    (hne : old.shards s ≠ new.shards s) :
    (migrationRules json text).Step (.deleteShard (old.shards s) ⟨s, l + 1⟩)
      (Taken ctl l old new s done) fun _ => Progress ctl old new (done ++ [s]) := by
  have hserve : ∀ w, Intact text w → Taken ctl l old new s done w →
      Intact text ((service json).serve w (.deleteShard (old.shards s) ⟨s, l + 1⟩)).2 ∧
      Taken ctl l old new s done
        ((service json).serve w (.deleteShard (old.shards s) ⟨s, l + 1⟩)).2 ∧
      Done old new s ((service json).serve w (.deleteShard (old.shards s) ⟨s, l + 1⟩)).2 := by
    rintro w hi ⟨hp, hnum, hnum'⟩
    obtain ⟨hk, hstage, hinv⟩ := hc.find hi hp.1 s
    obtain ⟨hadv, hsrc, hgone⟩ := hstage.deleteShard hk hnum' hne
    have hdst : (World.group (World.setGroup w (old.shards s)
        ((w.group (old.shards s)).doDeleteShard ⟨s, l + 1⟩).1) (new.shards s)).maxShardNum s =
          some (l + 1) := by
      rw [group_setGroup_of_ne w _ hne.symm]
      exact hnum'
    have hself := group_setGroup w (old.shards s)
      ((w.group (old.shards s)).doDeleteShard ⟨s, l + 1⟩).1
    refine ⟨hinv _ hadv, ⟨hp.advance hs hadv, ?_, hdst⟩, Or.inr ⟨?_, ?_, ?_⟩⟩
    · exact (congrArg (fun kv => KVServer.maxShardNum kv s) hself).trans hsrc
    · rw [hc.num]
      exact (congrArg (fun kv => KVServer.maxShardNum kv s) hself).trans hsrc
    · rw [hc.num]
      exact hdst
    · exact (congrArg (fun kv => KVServer.migratedShards kv s) hself).trans hgone
  refine ⟨stable_taken, fun _ _ _ => trivial, ?_, ?_⟩
  · intro w b o hi hp _ _
    obtain ⟨hi', hp', -⟩ := hserve w hi hp
    exact ⟨hi', .of_ctl rfl, hp'⟩
  · intro w b r hi hp _ _
    obtain ⟨-, ⟨hp', -, -⟩, hdone⟩ := hserve w hi hp
    refine ⟨hp'.1, fun s' hs' => ?_⟩
    rcases List.mem_append.mp hs' with hs' | hs'
    · exact hp'.2 s' hs'
    · rw [List.mem_singleton.mp hs']
      exact hdone

theorem safe_handOver (hrt : json.RoundTrips text) (hc : Change ctl l v old new) (hs : s ∉ done)
    (hne : old.shards s ≠ new.shards s) (hw : Progress ctl old new done w) :
    (migrationRules json text).Safe (fun _ => Progress ctl old new (done ++ [s]))
      (handOver (old.shards s) (new.shards s) (new.groups.lookup (new.shards s)) s new.num) w := by
  rw [hc.num, handOver]
  refine .call _ hw ((step_freezeShard hrt hc hs hne).mono fun frozen w hw => ?_)
  refine .bind (safe_makeClerk _ _ ?_)
  refine .call _ hw ((step_installShard hc hs hne frozen.state).mono fun _ w hw => ?_)
  exact .call _ hw (step_deleteShard hc hs hne)

end HandOver

theorem safe_migrateShard (hrt : json.RoundTrips text) (hc : Change ctl l v old new) {s : Tshid}
    {done : List Tshid} (hs : s ∉ done) (hne : old.shards s ≠ new.shards s)
    (hw : Progress ctl old new done w) :
    (migrationRules json text).Safe (fun _ => Progress ctl old new (done ++ [s]))
      (migrateShard (old.shards s) (new.shards s) s new.num new) w := by
  have hquery : ∀ w, Progress ctl old new done w → (migrationRules json text).Safe
      (fun r w => r = some old ∧ Progress ctl old new done w) query w :=
    fun w hw => safe_query (stable_progress json text done) (fun w hw => hw.1) hc.book hc.old hw
  refine .bind ((hquery w hw).mono ?_)
  rintro _ w ⟨rfl, hw⟩
  rw [if_neg (by simp)]
  refine .bind (.bind ((hquery w hw).mono ?_))
  rintro _ w ⟨rfl, hw⟩
  exact .bind (safe_makeClerk _ _ (safe_handOver hrt hc hs hne hw))

theorem safe_moveShards (hrt : json.RoundTrips text) (hc : Change ctl l v old new) (hw : w.ctl = ctl) :
    (migrationRules json text).Safe (fun _ => Progress ctl old new (List.finRange 12))
      (moveShards old new) w := by
  apply Rules.Safe.forM (Progress ctl old new)
  case hs => exact ⟨hw, by simp⟩
  intro done s rest hlist w hw
  have hs : s ∉ done := by
    have hnodup : (done ++ s :: rest).Nodup := hlist ▸ List.nodup_finRange 12
    intro hmem
    exact (List.disjoint_of_nodup_append hnodup) hmem List.mem_cons_self
  unfold moveShard
  by_cases heq : old.shards s = new.shards s
  · rw [if_pos heq]
    refine ⟨hw.1, fun s' hs' => ?_⟩
    rcases List.mem_append.mp hs' with hs' | hs'
    · exact hw.2 s' hs'
    · rw [List.mem_singleton.mp hs']
      exact Or.inl heq
  · have hold := ((hc.book.of_config hc.old).2.2 s).1
    have hnew := ((hc.book.of_config hc.new).2.2 s).1
    rw [if_neg heq, if_pos ⟨hold, hnew⟩]
    exact safe_migrateShard hrt hc hs heq hw

/-- Nothing is pending. -/
def Idle (w : World) : Prop :=
  ∃ l v old, Book WellFormed w.ctl l v ∧ w.config l = some old ∧ w.config (l + 1) = none

/-- Every shard is done, or the number is published already. -/
def Publishing (ctl : KeyValue CtrlKey CtrlValue) (l : ℕ) (v : Tversion) (old new : ShardConfig)
    (w : World) : Prop :=
  Progress ctl old new (List.finRange 12) w ∨ w.ctl = published ctl (l + 1) v

theorem safe_publish (hc : Change ctl l v old new) (hw : Progress ctl old new (List.finRange 12) w) :
    (migrationRules json text).Safe (fun _ => Idle) (publish new.num v) w := by
  have hbook : Book WellFormed (published ctl (l + 1) v) (l + 1) (v + 1) :=
    hc.book.publish (Nat.le_succ l) (by simp [hc.new])
  have hserve : ∀ w, Intact text w → Publishing ctl l v old new w →
      Intact text { w with ctl := (doPut w.ctl ⟨.latest, .num new.num, v⟩).1 } ∧
        RoutesKept w { w with ctl := (doPut w.ctl ⟨.latest, .num new.num, v⟩).1 } ∧
        (doPut w.ctl ⟨.latest, .num new.num, v⟩).1 = published ctl (l + 1) v := by
    rintro w hi (hp | hp)
    · rw [hp.1, doPut_publish hc.book.ledger, if_pos rfl, hc.num]
      refine ⟨⟨_, _, _, hc.publish hi hp.1 fun s => hp.2 s (List.mem_finRange s)⟩, ?_, rfl⟩
      refine .of_book (hp.1 ▸ hc.book) hbook (Nat.le_succ l) fun m _ => ?_
      rw [World.config, World.config, storedConfig_published, hp.1]
    · have hv : v ≠ v + 1 := by simp
      have hsame : (doPut w.ctl ⟨.latest, .num new.num, v⟩).1 = w.ctl := by
        rw [hp, doPut_publish hbook.ledger, if_neg hv]
      rw [hsame]
      exact ⟨hi, .of_ctl rfl, hp⟩
  have hstable : (migrationRules json text).Stable (Publishing ctl l v old new) := by
    rintro w w' hi hs hi' (hp | hp)
    · exact Or.inl (stable_progress json text _ w w' hi hs hi' hp)
    · exact Or.inr (hs.sameMarks.ctl.trans hp)
  refine .call _ (Or.inl hw) ⟨hstable, fun _ _ _ => trivial, ?_, ?_⟩
  · intro w b o hi hp _ _
    obtain ⟨hi', hroutes, hctl⟩ := hserve w hi hp
    exact ⟨hi', hroutes, Or.inr hctl⟩
  · intro w b r hi hp _ _
    obtain ⟨-, -, hctl⟩ := hserve w hi hp
    have hidle : ∀ w : World, w.ctl = published ctl (l + 1) v → Idle w := by
      intro w hw
      refine ⟨l + 1, v + 1, new, hw ▸ hbook, ?_, ?_⟩
      · rw [World.config, hw, storedConfig_published, hc.new]
      · rw [World.config, hw, storedConfig_published, Option.eq_none_iff_forall_not_mem]
        intro cfg hcfg
        exact absurd (hc.book.of_config hcfg).1 (by omega)
    exact hidle _ hctl

theorem stable_idle (json : Json B) (text : GoString → Prop) : (migrationRules json text).Stable Idle :=
  stable_of_sameMarks fun w w' hm ⟨l, v, old, hb, hold, hnone⟩ =>
    ⟨l, v, old, hm.ctl ▸ hb, by rw [World.config, hm.ctl]; exact hold,
      by rw [World.config, hm.ctl]; exact hnone⟩

theorem stable_at : (migrationRules json text).Stable fun w => w.ctl = ctl :=
  stable_of_sameMarks fun _ _ hm h => hm.ctl.trans h

/-- A controller that found the change pending finishes it. -/
theorem safe_recover (hrt : json.RoundTrips text) (hc : Change ctl l v old new) (hw : w.ctl = ctl) :
    (migrationRules json text).Safe (fun _ => Idle) (recover (l + 1) new) w := by
  refine .bind ((safe_query stable_at (fun _ h => h) hc.book hc.old hw).mono ?_)
  rintro _ w ⟨rfl, hw⟩
  refine .call (fun w => w.ctl = ctl) hw (step_readVersion stable_at fun w hw => ?_)
  rw [hw, hc.book.ledger.doGet_latest]
  refine .bind ((safe_moveShards hrt hc hw).mono fun _ w hw => ?_)
  rw [← hc.num]
  exact safe_publish hc hw

theorem safe_initController (hrt : json.RoundTrips text) (hi : Intact text w) :
    (migrationRules json text).Safe (fun _ => Idle) initController w := by
  obtain ⟨l, v, old, hsound⟩ := hi
  have hb := hsound.book
  generalize hctl : w.ctl = ctl at hb
  have hold : storedConfig ctl l = some old := hctl ▸ hsound.config
  refine .call (fun w => w.ctl = ctl) hctl (step_get stable_at fun w hw => ?_)
  rw [hw, hb.ledger.doGet_latest]
  change (migrationRules json text).Safe _ (findPending l (1 :: List.range' 2 99) (0, .empty) >>= _) w
  cases hpend : storedConfig ctl (l + 1) with
  | none =>
    refine .call (fun w => w.ctl = ctl) hw (step_get stable_at fun w hw => ?_)
    rw [hw]
    simp only [hb.ledger.doGet_missing hpend, reduceCtorEq, if_false]
    exact ⟨l, v, old, hw ▸ hb, by rw [World.config, hw, hold], by rw [World.config, hw, hpend]⟩
  | some new =>
    have hc : Change ctl l v old new := ⟨hb, hold, hpend⟩
    have hlast : storedConfig ctl (l + 2) = none := by
      rw [Option.eq_none_iff_forall_not_mem]
      intro cfg hcfg
      exact absurd (hb.of_config hcfg).1 (by omega)
    refine .call (fun w => w.ctl = ctl) hw (step_get stable_at fun w hw => ?_)
    rw [hw, hb.ledger.doGet_config hpend]
    change (migrationRules json text).Safe _
      (findPending l (2 :: List.range' 3 98) (l + 1, .config new) >>= _) w
    refine .call (fun w => w.ctl = ctl) hw (step_get stable_at fun w hw => ?_)
    rw [hw]
    simp only [hb.ledger.doGet_missing hlast, reduceCtorEq, if_false]
    exact safe_recover hrt hc hw

/-- The configuration from which the caller makes the next one is the published one. -/
theorem safe_startUp (hrt : json.RoundTrips text) (hi : Intact text w) :
    (migrationRules json text).Safe (fun r w => Idle w ∧ ∀ cfg ∈ r, w.latest = some cfg.num) startUp w := by
  refine .bind ((safe_initController hrt hi).mono ?_)
  rintro _ w ⟨l, v, old, hb, hold, hnone⟩
  generalize hctl : w.ctl = ctl at hb
  have hold' : storedConfig ctl l = some old := hctl ▸ hold
  refine (safe_query (P := fun w => w.ctl = ctl) stable_at (fun _ h => h) hb hold' hctl).mono ?_
  rintro _ w' ⟨rfl, hw'⟩
  refine ⟨⟨l, v, old, hw' ▸ hb, ?_, ?_⟩, ?_⟩
  · rw [World.config, hw', hold']
  · rw [World.config, hw', ← hctl]
    exact hnone
  · rintro cfg ⟨⟩
    rw [World.latest, hw', hb.latest, (hb.of_config hold').2.1]

/-- The store before and after the claim. -/
def Claiming (ctl : KeyValue CtrlKey CtrlValue) (new : ShardConfig) (w : World) : Prop :=
  w.ctl = ctl ∨ w.ctl = claimed ctl new

theorem safe_carryOut (hrt : json.RoundTrips text) (hc : Change ctl l v old new) (hw : w.ctl = ctl) :
    (migrationRules json text).Safe (fun _ _ => True) (carryOut old new) w := by
  refine .call (fun w => w.ctl = ctl) hw (step_get stable_at fun w hw => ?_)
  rw [hw, hc.book.ledger.doGet_latest]
  refine .call (fun w => w.ctl = ctl) hw (step_get stable_at fun w hw => ?_)
  rw [hw, hc.book.ledger.doGet_latest]
  have hlow : ¬l ≥ new.num := by
    rw [hc.num]
    omega
  simp only [CtrlValue.atoi, hlow, and_false, if_false]
  refine .bind ((safe_moveShards hrt hc hw).mono fun _ w hw => ?_)
  exact (safe_publish hc hw).mono fun _ _ _ => trivial

/-- The claim stores the configuration once, and then the change is under way. -/
theorem step_claim (hrt : json.RoundTrips text) (hb : Book WellFormed ctl l v)
    (hold : storedConfig ctl l = some old) (hnone : storedConfig ctl new.num = none)
    (hnum : new.num = l + 1) (hnew : WellFormed new) :
    (migrationRules json text).Step (.put ⟨.config (.num new.num), .config new, 0⟩) (Claiming ctl new)
      fun err => (migrationRules json text).Safe (fun _ _ => True)
        (if err ≠ .ok ∧ err ≠ .errMaybe then .pure ⟨⟩ else carryOut old new) := by
  have hb' : Book WellFormed (claimed ctl new) l v := hb.claim hnum.le hnew
  have hown : storedConfig (claimed ctl new) new.num = some new := by
    rw [storedConfig_claimed, if_pos rfl]
  have hc : Change (claimed ctl new) l v old new := by
    refine ⟨hb', ?_, hnum ▸ hown⟩
    rw [storedConfig_claimed, if_neg (by omega), hold]
  have hserve : ∀ w, Intact text w → Claiming ctl new w →
      Intact text { w with ctl := (doPut w.ctl ⟨.config (.num new.num), .config new, 0⟩).1 } ∧
        RoutesKept w { w with ctl := (doPut w.ctl ⟨.config (.num new.num), .config new, 0⟩).1 } ∧
        (doPut w.ctl ⟨.config (.num new.num), .config new, 0⟩).1 = claimed ctl new := by
    rintro w hi (rfl | hw)
    · have hsound := hi.sound hb hold
      rw [doPut_claim hnone hb.ledger]
      refine ⟨⟨l, v, old, hsound.claim (hnum ▸ hnone) hnum hnew⟩, ?_, rfl⟩
      refine .of_book hb hb' le_rfl fun m hm => ?_
      rw [World.config, World.config, storedConfig_claimed, if_neg (by omega)]
    · have hsame : (doPut w.ctl ⟨.config (.num new.num), .config new, 0⟩).1 = w.ctl := by
        rw [hw, doPut_claim_again hown hb'.ledger]
      rw [hsame]
      exact ⟨hi, .of_ctl rfl, hw⟩
  have hstable : (migrationRules json text).Stable (Claiming ctl new) :=
    stable_of_sameMarks fun _ _ hm h => h.imp hm.ctl.trans hm.ctl.trans
  refine ⟨hstable, fun _ _ _ => trivial, ?_, ?_⟩
  · intro w b o hi hw _ _
    obtain ⟨hi', hroutes, hctl⟩ := hserve w hi hw
    exact ⟨hi', hroutes, Or.inr hctl⟩
  · intro w b err hi hw _ _
    obtain ⟨-, -, hctl⟩ := hserve w hi hw
    split_ifs
    · trivial
    · exact safe_carryOut hrt hc hctl

theorem safe_changeConfigTo (hrt : json.RoundTrips text) (hidle : Idle w)
    (hnum : ∃ l, w.latest = some l ∧ new.num = l + 1) (hnew : WellFormed new) :
    (migrationRules json text).Safe (fun _ _ => True) (changeConfigTo new) w := by
  obtain ⟨l, v, old, hb, hold, hnone⟩ := hidle
  obtain ⟨l', hl', hnum⟩ := hnum
  obtain rfl : l = l' := by simpa [World.latest, hb.latest] using hl'
  generalize hctl : w.ctl = ctl at hb
  replace hold : storedConfig ctl l = some old := hctl ▸ hold
  replace hnone : storedConfig ctl new.num = none := by
    rw [hnum, ← hctl]
    exact hnone
  refine .bind ((safe_query (P := fun w => w.ctl = ctl) stable_at (fun _ h => h) hb hold hctl).mono ?_)
  rintro _ w ⟨rfl, hw⟩
  have holdnum : ¬old.num ≥ new.num := by
    rw [(hb.of_config hold).2.1, hnum]
    omega
  change (migrationRules json text).Safe _ (if old.num ≥ new.num then _ else _) w
  rw [if_neg holdnum]
  exact .call (Claiming ctl new) (Or.inl hw) (step_claim hrt hb hold hnone hnum hnew)

end Programs

/-- A controller starts when no other is at work, every new configuration is well formed, and clients
write strings of a kind. -/
def Sequential {B : Type} (text : GoString → Prop) (sys : System B) : Action → Prop
  | .spawn => sys.controllers.length = 0
  | .change _ new => WellFormed new
  | .clientPut _ args => text args.key ∧ text args.value
  | .attempt _ _ | .retire _ | .clientGet _ _ => True

instance {B : Type} (text : GoString → Prop) [DecidablePred text] (sys : System B) (a : Action) :
    Decidable (Sequential text sys a) :=
  match a with
  | .spawn => inferInstanceAs (Decidable (_ = 0))
  | .change _ new => inferInstanceAs (Decidable (WellFormed new))
  | .clientPut _ _ => inferInstanceAs (Decidable (_ ∧ _))
  | .attempt _ _ | .retire _ | .clientGet _ _ => .isTrue trivial

section Runs
variable {B : Type} {json : Json B} {text : GoString → Prop}

/-- The controller keeps to the rules from here on. -/
def Controller.Safe (json : Json B) (text : GoString → Prop) (w : World) (t : Controller B) : Prop :=
  t.Keeps (migrationRules json text) (fun r w => Idle w ∧ ∀ cfg ∈ r, w.latest = some cfg.num) w

structure InOrder (json : Json B) (text : GoString → Prop) (sys : System B) : Prop where
  intact : Intact text sys.world
  alone : sys.controllers.length ≤ 1
  safe : ∀ t ∈ sys.controllers, t.Safe json text sys.world

theorem Controller.Safe.client {w w' : World} {t : Controller B} (h : t.Safe json text w)
    (hi : Intact text w) (hs : ClientStep text w w') : t.Safe json text w' ∧ Intact text w' := by
  have hi' : Intact text w' := by
    obtain ⟨l, v, old, hsound⟩ := hi
    exact ⟨l, v, old, hsound.client hs⟩
  refine ⟨Controller.Keeps.stable h (fun r => ?_) hi hs hi', hi'⟩
  rintro w w' hi hs hi' ⟨hidle, hnum⟩
  refine ⟨stable_idle json text w w' hi hs hi' hidle, fun cfg hcfg => ?_⟩
  rw [World.latest, hs.sameMarks.ctl]
  exact hnum cfg hcfg

theorem InOrder.step (hrt : json.RoundTrips text) {sys sys' : System B} {a : Action}
    (h : InOrder json text sys) (hg : Sequential text sys a) (hs : sys.step json a = some sys') :
    InOrder json text sys' ∧ RoutesKept sys.world sys'.world := by
  have honly : ∀ i t, sys.controllers[i]? = some t → i = 0 ∧ sys.controllers = [t] := by
    intro i t ht
    obtain ⟨hi, rfl⟩ := List.getElem?_eq_some_iff.mp ht
    have hlen : sys.controllers.length = 1 := by have := h.alone; omega
    obtain ⟨x, hx⟩ := List.length_eq_one_iff.mp hlen
    have hi0 : i = 0 := by omega
    subst hi0
    exact ⟨rfl, by simp [hx]⟩
  cases a with
  | spawn =>
    cases hs
    have hnone : sys.controllers = [] := List.length_eq_zero_iff.mp hg
    refine ⟨⟨h.intact, by simp [hnone], fun t ht => ?_⟩, .of_ctl rfl⟩
    simp only [hnone, List.nil_append, List.mem_singleton] at ht
    subst ht
    exact safe_startUp hrt h.intact
  | change i new =>
    obtain ⟨resend, cfg, ht, hnum, rfl⟩ := System.step_change hs
    obtain ⟨rfl, honly⟩ := honly i _ ht
    have hsafe := h.safe _ (List.mem_of_getElem? ht)
    obtain ⟨hidle, hlatest⟩ := hsafe
    refine ⟨⟨h.intact, by simp [honly], fun t ht => ?_⟩, .of_ctl rfl⟩
    simp only [honly, List.set_cons_zero, List.mem_singleton] at ht
    subst ht
    exact safe_changeConfigTo hrt hidle ⟨cfg.num, hlatest cfg rfl, hnum⟩ hg
  | attempt i o =>
    obtain ⟨t, t', w', ht, hr, rfl⟩ := System.step_attempt hs
    obtain ⟨rfl, honly⟩ := honly i t ht
    obtain ⟨hi, hroutes, hsafe⟩ := (h.safe t (List.mem_of_getElem? ht)).attempt rfl
      h.intact (.of_ctl rfl) (fun _ _ => trivial) hr
    refine ⟨⟨hi, by simp [honly], fun t₂ ht₂ => ?_⟩, hroutes⟩
    simp only [honly, List.set_cons_zero, List.mem_singleton] at ht₂
    subst ht₂
    exact hsafe
  | retire i =>
    rw [System.step_retire hs]
    refine ⟨⟨h.intact, (List.length_eraseIdx_le _ _).trans h.alone, fun t ht => ?_⟩, .of_ctl rfl⟩
    exact h.safe t (List.mem_of_mem_eraseIdx ht)
  | clientGet gid args =>
    rw [System.step_clientGet hs]
    exact ⟨h, .of_ctl rfl⟩
  | clientPut gid args =>
    obtain ⟨hr, rfl⟩ := System.step_clientPut hs
    have hclient : ClientStep text sys.world (sys.world.clientPut gid args) :=
      ⟨gid, args, hr, hg, rfl⟩
    obtain ⟨l, v, old, hsound⟩ := h.intact
    refine ⟨⟨⟨l, v, old, hsound.client hclient⟩, h.alone, fun t ht => ?_⟩, .of_ctl rfl⟩
    exact ((h.safe t ht).client h.intact hclient).1

theorem intact_init {first : ShardConfig} (hfirst : WellFormed first) :
    Intact text (System.init json first).world := by
  obtain ⟨hb, hcfg, hother⟩ := book_init json hfirst
  refine ⟨first.num, 1, first, hb, hcfg, ⟨fun g key h => absurd rfl h, nofun⟩, fun s => ?_⟩
  refine .rest ⟨⟨rfl, rfl⟩, fun key _ => rfl⟩ (fun g m hm => by cases hm) fun g hr hg => ?_
  obtain ⟨m, cfg, -, hm, rfl⟩ := (hb.ledger.routed_iff s g).mp hr
  rcases eq_or_ne m first.num with rfl | hne
  · cases hcfg.symm.trans hm
    exact absurd rfl hg
  · cases (hother m hne).symm.trans hm

theorem inOrder_init {first : ShardConfig} (hfirst : WellFormed first) :
    InOrder json text (System.init json first) := ⟨intact_init hfirst, Nat.zero_le _, nofun⟩

/-- The configuration after the published one is stored already. -/
def World.Pending (w : World) : Prop := ∃ l ∈ w.latest, w.config (l + 1) ≠ none

instance (w : World) : Decidable w.Pending := inferInstanceAs (Decidable (∃ l ∈ w.latest, _))

/-- No operation on the shard is sent elsewhere. -/
def AnswersClients (kv : KVServer) (s : Tshid) : Prop := ∀ key, key2Shard key = s →
  (kv.get ⟨key⟩).err ≠ .errWrongGroup ∧
    ∀ value version, (kv.put ⟨key, value, version⟩).2.err ≠ .errWrongGroup

/-- Every operation on the shard is sent elsewhere. -/
def RefusesClients (kv : KVServer) (s : Tshid) : Prop := ∀ key, key2Shard key = s →
  (kv.get ⟨key⟩).err = .errWrongGroup ∧
    ∀ value version, (kv.put ⟨key, value, version⟩).2.err = .errWrongGroup

theorem answersClients {kv : KVServer} {s : Tshid} (h : kv.Accepts s) : AnswersClients kv s := by
  rintro key rfl
  refine ⟨?_, fun value version => ?_⟩
  · rw [KVServer.get_of_accepts h, doGet]
    split <;> simp
  · rw [KVServer.put_of_accepts ⟨key, value, version⟩ h]
    exact doPut_ne_wrongGroup _ _

theorem refusesClients {kv : KVServer} {s : Tshid} (h : kv.TurnsAway s) : RefusesClients kv s := by
  rintro key rfl
  refine ⟨KVServer.get_of_turnsAway h, fun value version => ?_⟩
  rw [KVServer.put_of_turnsAway ⟨key, value, version⟩ h]

/-- The published configuration tells where the entries of every shard are: its group takes
operations and holds what the `Put`s on the shard left, and every other group that had the
shard before sends clients elsewhere. -/
structure Preserved (w : World) (l : ℕ) (cfg : ShardConfig) (s : Tshid) : Prop where
  answers : AnswersClients (w.group (cfg.shards s)) s
  entries : ∀ key, key2Shard key = s → (w.group (cfg.shards s)).keyValue key =
    applyPuts (w.puts.filter fun a => key2Shard a.key = s) key
  refuses : ∀ m earlier, m < l → w.config m = some earlier → earlier.shards s ≠ cfg.shards s →
    RefusesClients (w.group (earlier.shards s)) s

theorem Sound.preserved {w : World} {l : ℕ} {v : Tversion} {cfg : ShardConfig}
    (h : Sound text w l v cfg) (hidle : w.config (l + 1) = none) (s : Tshid) : Preserved w l cfg s := by
  have hgoal : w.goal l cfg s = cfg.shards s := by simp [World.goal, hidle]
  have hstage := h.stage s
  rw [hgoal] at hstage
  cases hstage with
  | rest serves fresh away =>
    refine ⟨answersClients serves.accepts, fun key hkey => ?_, fun m earlier hm hcfg hne => ?_⟩
    · rw [serves.holds key hkey, World.truth]
      exact (applyPuts_filter (fun key => key2Shard key = s) w.puts (by simpa using hkey)).symm
    · have hrouted := (h.book.ledger.routed_iff s (earlier.shards s)).mpr ⟨m, earlier, hm.le, hcfg, rfl⟩
      exact refusesClients (Or.inl (away _ hrouted hne))
  | frozen differ => exact absurd rfl differ
  | moved differ => exact absurd rfl differ

theorem InOrder.preserved {sys : System B} (h : InOrder json text sys) (hidle : ¬sys.world.Pending) :
    ∃ l cfg, sys.world.latest = some l ∧ sys.world.config l = some cfg ∧
      ∀ s, Preserved sys.world l cfg s := by
  obtain ⟨l, v, cfg, hsound⟩ := h.intact
  have hlatest : sys.world.latest = some l := by simp [World.latest, hsound.book.latest]
  have hnone : sys.world.config (l + 1) = none := by
    by_contra hsome
    exact hidle ⟨l, hlatest, hsome⟩
  exact ⟨l, cfg, hlatest, hsound.config, fun s => hsound.preserved hnone s⟩

/-- Migration with crashes preserves the data: whenever no change is pending, the published
configuration tells where the entries of every shard are. -/
theorem shards_preserved (hrt : json.RoundTrips text) {first : ShardConfig} (hfirst : WellFormed first)
    (sys : System B) (h : Reaches (System.step json) (Sequential text) (System.init json first) sys)
    (hidle : ¬sys.world.Pending) :
    ∃ l cfg, sys.world.latest = some l ∧ sys.world.config l = some cfg ∧
      ∀ s, Preserved sys.world l cfg s := by
  have hkept : ∀ sys a sys', InOrder json text sys → Sequential text sys a →
      System.step json sys a = some sys' → InOrder json text sys' :=
    fun sys a sys' hs hg hstep => (hs.step hrt hg hstep).1
  exact (h.invariant (inOrder_init hfirst) hkept).preserved hidle

/-- A client writes the key `m` of shard 0, a controller that moves the shard from group 1 to
group 2 crashes after the freeze, and the next one finishes the change. -/
theorem shards_preserved_after_crash : ∃ sys : System Entries,
    Reaches (System.step plainJson) (Sequential fun _ => True) (System.init plainJson (twoGroups 1 1)) sys ∧
      sys.world.latest = some 2 ∧ sys.world.puts.length = 1 ∧
      ∃ l cfg, sys.world.latest = some l ∧ sys.world.config l = some cfg ∧
        ∀ s, Preserved sys.world l cfg s := by
  obtain ⟨sys, hreach, hlatest, hputs, hidle⟩ :=
    exists_reaches (System.step plainJson) (Sequential fun _ => True)
      (System.init plainJson (twoGroups 1 1))
      ([[.clientPut 1 ⟨[109], [120], 0⟩, .spawn], List.replicate 4 (.attempt 0 .answered),
        .change 0 (twoGroups 2 2) :: List.replicate 9 (.attempt 0 .answered),
        [.attempt 0 .replyLost, .retire 0, .spawn],
        List.replicate 16 (.attempt 0 .answered)] : List (List Action)).flatten
      (fun sys => sys.world.latest = some 2 ∧ sys.world.puts.length = 1 ∧ ¬sys.world.Pending)
      (by decide +kernel)
  exact ⟨sys, hreach, hlatest, hputs,
    shards_preserved (plainJson_roundTrips _) (by decide) sys hreach hidle⟩

end Runs

end DistributedLabs.ShardKv
