import DistributedLabs.ShardGroupNumbers
import DistributedLabs.ShardMigration

/-!
# Shards that leave and come back

One controller makes one change after another, over any configurations with
increasing numbers. A group that gives a shard up marks it, and only an install
takes the mark away. A change that assigns an unassigned shard asks nobody to
install it, so its group answers only if it has never had the shard before.
-/

namespace DistributedLabs.ShardKv
open Kv RpcPrograms TransitionRuns

variable {B : Type}

structure Succession (B : Type) where
  world : World
  /-- the configuration of the last call -/
  target : ShardConfig
  run : Running (Op.Ans (B := B)) PUnit

inductive SuccessionAction
  | changeConfigTo (new : ShardConfig)
  /-- one attempt of a call to the store or to a group -/
  | attempt (o : Outcome)
  | clientPut (gid : Tgid) (args : PutArgs GoString GoString)

namespace Succession

/-- `InitConfig` has returned. -/
def init (json : Json B) (first : ShardConfig) : Succession B :=
  ⟨(System.init json first).world, first, .start (.pure ⟨⟩)⟩

/-- The next call is made when the last one has returned, and with a larger number. -/
def step (json : Json B) (c : Succession B) : SuccessionAction → Option (Succession B)
  | .changeConfigTo new =>
    match c.run.prog with
    | .pure _ =>
      if c.target.num < new.num then some ⟨c.world, new, .start (changeConfigTo new)⟩ else none
    | _ => none
  | .attempt o =>
    (c.run.attempt (service json) o c.world).map fun r => { c with world := r.2, run := r.1 }
  | .clientPut gid args => some { c with world := c.world.clientPut gid args }

theorem step_changeConfigTo {json : Json B} {c c' : Succession B} {new : ShardConfig}
    (hs : c.step json (.changeConfigTo new) = some c') :
    c.run.prog = .pure ⟨⟩ ∧ c.target.num < new.num ∧
      c' = ⟨c.world, new, .start (changeConfigTo new)⟩ := by
  simp only [step] at hs
  split at hs
  case h_2 => cases hs
  case h_1 r hpure =>
    split_ifs at hs with hlt
    cases hs
    exact ⟨hpure, hlt, rfl⟩

end Succession

/-- A shard that is unassigned in the published configuration goes to a group to which no
configuration so far has assigned it. -/
def FirstAssignment (c : Succession B) : SuccessionAction → Prop
  | .changeConfigTo new => ∀ l ∈ c.world.latest, ∀ old ∈ c.world.config l, ∀ s,
    old.shards s = 0 → new.shards s ≠ 0 → ¬c.world.Routed s (new.shards s)
  | _ => True

instance (c : Succession B) (a : SuccessionAction) : Decidable (FirstAssignment c a) :=
  match a with
  | .changeConfigTo _ => inferInstanceAs (Decidable (∀ l ∈ c.world.latest, _))
  | .attempt _ | .clientPut _ _ => .isTrue trivial

/-- The number, the mark of a shard given away and the mark of a frozen shard, for every group. -/
abbrev Marks := Tgid → Option ℕ × Bool × Bool

def World.marks (w : World) (s : Tshid) : Marks := fun g => (w.group g).standing s

theorem World.marks_setGroup (w : World) (gid : Tgid) (kv : KVServer) (s : Tshid) :
    (w.setGroup gid kv).marks s = Function.update (w.marks s) gid (kv.standing s) := by
  funext g
  rcases eq_or_ne g gid with rfl | hne
  · simp [marks]
  · simp [marks, group_setGroup_of_ne w kv hne, hne]

/-- No change is under way: the owner of the shard answers, and so do the groups that have never
had it. -/
structure Tidy (known : Tgid → Prop) (n : ℕ) (owner : Tgid) (marks : Marks) : Prop where
  number : ∀ g, ∀ m ∈ (marks g).1, m ≤ n
  thawed : ∀ g, (marks g).2.2 = false
  owner : owner ≠ 0 → (marks owner).2.1 = false
  strangers : ∀ g, ¬known g → (marks g).2.1 = false

theorem Tidy.mono {known known' : Tgid → Prop} {n n' : ℕ} {owner : Tgid} {marks : Marks}
    (h : Tidy known n owner marks) (hn : n ≤ n') (hk : ∀ g, known g → known' g) :
    Tidy known' n' owner marks where
  number g m hm := (h.number g m hm).trans hn
  thawed := h.thawed
  owner := h.owner
  strangers g hg := h.strangers g (mt (hk g) hg)

/-- The change with number `n` takes the shard away from group `src`. -/
structure Leaving (known : Tgid → Prop) (n : ℕ) (src : Tgid) (marks : Marks) : Prop where
  number : ∀ g, ∀ m ∈ (marks g).1, m ≤ n
  thawed : ∀ g, g ≠ src → (marks g).2.2 = false
  strangers : ∀ g, ¬known g → (marks g).2.1 = false

section Leaving
variable {known : Tgid → Prop} {l n : ℕ} {src dst : Tgid} {marks : Marks} {json : Json B}
  {kv kv' : KVServer} {s : Tshid}

theorem Tidy.leaving (h : Tidy known l src marks) (hn : l ≤ n) : Leaving known n src marks where
  number g m hm := (h.number g m hm).trans hn
  thawed g _ := h.thawed g
  strangers := h.strangers

theorem Leaving.update (h : Leaving known n src marks) {gid : Tgid} {x : Option ℕ × Bool × Bool}
    (hnumber : x.1 = some n) (hthawed : gid ≠ src → x.2.2 = false)
    (hstrangers : ¬known gid → x.2.1 = false) :
    Leaving known n src (Function.update marks gid x) where
  number g m hm := by
    rw [Function.update_apply] at hm
    split_ifs at hm with hg
    · cases hnumber.symm.trans hm
      exact le_rfl
    · exact h.number g m hm
  thawed g hsrc := by
    rw [Function.update_apply]
    split_ifs with hg
    · exact hthawed (hg ▸ hsrc)
    · exact h.thawed g hsrc
  strangers g hk := by
    rw [Function.update_apply]
    split_ifs with hg
    · exact hstrangers (hg ▸ hk)
    · exact h.strangers g hk

/-- With a number at least as large as the group's the operation is not late. -/
theorem KVServer.ShardStep.number {c : Command B} (h : kv.ShardStep json c s n kv')
    (hle : ∀ m ∈ kv.maxShardNum s, m ≤ n) : kv'.maxShardNum s = some n := by
  cases h with
  | late c s n maxNum _ hmax hlt => exact absurd hlt (hle maxNum hmax).not_gt
  | frozenBefore args heq => exact heq
  | installedBefore args heq => exact heq
  | deletedBefore args heq => exact heq
  | freeze args hfresh => simp [KVServer.freeze]
  | install args hfresh => rw [KVServer.install_maxShardNum, Function.update_self]
  | delete args hfresh => simp [KVServer.delete]

/-- An install with a new number takes the mark away and freezes nothing. -/
theorem KVServer.ShardStep.installed {args : InstallShardArgs B}
    (h : kv.ShardStep json (.installShard args) s n kv') (hfresh : kv.Fresh s n) :
    kv'.migratedShards s = false ∧ (kv.frozenShards s = false → kv'.frozenShards s = false) := by
  cases h with
  | late _ _ _ maxNum _ hmax hlt => exact absurd (hfresh maxNum hmax) hlt.not_gt
  | installedBefore args heq => exact absurd (hfresh _ heq) (lt_irrefl _)
  | install args _ =>
    unfold KVServer.install
    cases args.state.bind json.unmarshal <;> simp

/-- The new group has not been asked, or it has installed the shard. -/
def Taking (l n : ℕ) (x : Option ℕ × Bool × Bool) : Prop :=
  (∀ m ∈ x.1, m ≤ l) ∨ x.1 = some n ∧ x.2.1 = false

/-- The new group, if there is one, has installed the shard. -/
def TakenBy (dst : Tgid) (marks : Marks) : Prop := dst ≠ 0 → (marks dst).2.1 = false

theorem Leaving.freezeShard (h : Leaving known n src marks) (hne : src ≠ dst)
    (hdst : ∀ m ∈ (marks dst).1, m ≤ l) (hknown : known src) (hkv : marks src = kv.standing s)
    {args : FreezeShardArgs} (hs : kv.ShardStep json (.freezeShard args) s n kv') :
    Leaving known n src (Function.update marks src (kv'.standing s)) ∧
      ∀ m ∈ (Function.update marks src (kv'.standing s) dst).1, m ≤ l := by
  have hle := h.number src
  rw [hkv] at hle
  refine ⟨h.update (hs.number hle) (absurd rfl) (absurd hknown), ?_⟩
  rw [Function.update_of_ne hne.symm]
  exact hdst

theorem Leaving.installShard (h : Leaving known n src marks) (hne : src ≠ dst) (hlt : l < n)
    (hdst : Taking l n (marks dst)) (hkv : marks dst = kv.standing s)
    {args : InstallShardArgs B} (hs : kv.ShardStep json (.installShard args) s n kv') :
    Leaving known n src (Function.update marks dst (kv'.standing s)) ∧
      Taking l n (Function.update marks dst (kv'.standing s) dst) ∧
      TakenBy dst (Function.update marks dst (kv'.standing s)) := by
  have hthawed := h.thawed dst hne.symm
  have hle := h.number dst
  rw [hkv] at hdst hle hthawed
  have hnumber : kv'.maxShardNum s = some n := hs.number hle
  have htaken : kv'.migratedShards s = false ∧ kv'.frozenShards s = false := by
    rcases hdst with hold | ⟨heq, hmark⟩
    · have hfresh : kv.Fresh s n := fun m hm => (hold m hm).trans_lt hlt
      obtain ⟨hmark, hfrozen⟩ := hs.installed hfresh
      exact ⟨hmark, hfrozen hthawed⟩
    · rcases hs.of_seen heq le_rfl with rfl | ⟨-, ⟨args, hargs⟩, -⟩
      · exact ⟨hmark, hthawed⟩
      · cases hargs
  refine ⟨h.update hnumber (fun _ => htaken.2) fun _ => htaken.1, ?_, fun _ => ?_⟩
  · rw [Function.update_self]
    exact Or.inr ⟨hnumber, htaken.1⟩
  · rw [Function.update_self]
    exact htaken.1

theorem Leaving.deleteShard (h : Leaving known n src marks) (hne : src ≠ dst)
    (hdst : TakenBy dst marks) (hknown : known src) (hkv : marks src = kv.standing s)
    {args : DeleteShardArgs} (hs : kv.ShardStep json (.deleteShard args) s n kv') :
    Leaving known n src (Function.update marks src (kv'.standing s)) ∧
      TakenBy dst (Function.update marks src (kv'.standing s)) ∧
      Tidy known n dst (Function.update marks src (kv'.standing s)) := by
  have hle := h.number src
  rw [hkv] at hle
  have hnumber : kv'.maxShardNum s = some n := hs.number hle
  have hleaving : Leaving known n src (Function.update marks src (kv'.standing s)) :=
    h.update hnumber (absurd rfl) (absurd hknown)
  have htaken : TakenBy dst (Function.update marks src (kv'.standing s)) := by
    unfold TakenBy
    rw [Function.update_of_ne hne.symm]
    exact hdst
  refine ⟨hleaving, htaken, hleaving.number, fun g => ?_, htaken, hleaving.strangers⟩
  rcases eq_or_ne g src with rfl | hg
  · rw [Function.update_self]
    exact (hs.given_up hnumber).2
  · exact hleaving.thawed g hg

end Leaving

/-- Clients leave the store and the marks of the groups alone. -/
structure MarksKept (w w' : World) : Prop where
  ctl : w'.ctl = w.ctl
  marks : ∀ s, w'.marks s = w.marks s

theorem marksKept_clientPut (json : Json B) (w : World) (gid : Tgid)
    (args : PutArgs GoString GoString) : MarksKept w (w.clientPut gid args) := by
  refine ⟨rfl, fun s => ?_⟩
  have hclient : (Rsm.Any.value (Command.put (B := B) args)).command.target = none := rfl
  change (w.setGroup gid ((w.group gid).put args).1).marks s = w.marks s
  rw [World.marks_setGroup, Function.update_eq_self_iff]
  exact KVServer.standing_of_client json (w.group gid) hclient s

def successionRules (json : Json B) : Rules World (Op.Ans (B := B)) where
  service := service json
  admits _ _ _ _ := True
  inv _ := True
  rely := MarksKept
  guar _ _ := True
  issue _ _ := True

/-- The change that a call of `ChangeConfigTo` makes once it has stored its configuration: what
the controllers' store holds meanwhile, and the groups that have had a shard before. -/
structure Plan where
  ctl : KeyValue CtrlKey CtrlValue
  l : ℕ
  v : Tversion
  old : ShardConfig
  new : ShardConfig
  known : Tshid → Tgid → Prop
  ledger : Ledger ctl l v
  config : storedConfig ctl l = some old
  stored : storedConfig ctl new.num = some new
  lt : l < new.num
  known_old : ∀ s, known s (old.shards s)
  first : ∀ s, old.shards s = 0 → new.shards s ≠ 0 → ¬known s (new.shards s)

namespace Plan
variable (p : Plan) {json : Json B} {w w' : World} {done : List Tshid} {s : Tshid}

/-- What holds of the other shards while the controller is at work on one. -/
structure Elsewhere (done : List Tshid) (s : Tshid) (w : World) : Prop where
  ctl : w.ctl = p.ctl
  moved : ∀ t ∈ done, t ≠ s → Tidy (p.known t) p.new.num (p.new.shards t) (w.marks t)
  todo : ∀ t, t ∉ done → t ≠ s → Tidy (p.known t) p.l (p.old.shards t) (w.marks t)

/-- What holds between two rounds of the loop over the shards. -/
structure Midway (done : List Tshid) (w : World) : Prop where
  ctl : w.ctl = p.ctl
  moved : ∀ t ∈ done, Tidy (p.known t) p.new.num (p.new.shards t) (w.marks t)
  todo : ∀ t, t ∉ done → Tidy (p.known t) p.l (p.old.shards t) (w.marks t)

variable {p}

theorem Elsewhere.kept (h : p.Elsewhere done s w) (hctl : w'.ctl = w.ctl)
    (hmarks : ∀ t, t ≠ s → w'.marks t = w.marks t) : p.Elsewhere done s w' := by
  refine ⟨hctl.trans h.ctl, fun t ht hne => ?_, fun t ht hne => ?_⟩
  · rw [hmarks t hne]
    exact h.moved t ht hne
  · rw [hmarks t hne]
    exact h.todo t ht hne

theorem Midway.kept (h : p.Midway done w) (hk : MarksKept w w') : p.Midway done w' := by
  refine ⟨hk.ctl.trans h.ctl, fun t ht => ?_, fun t ht => ?_⟩
  · rw [hk.marks t]
    exact h.moved t ht
  · rw [hk.marks t]
    exact h.todo t ht

theorem Midway.elsewhere (h : p.Midway done w) : p.Elsewhere done s w :=
  ⟨h.ctl, fun t ht _ => h.moved t ht, fun t ht _ => h.todo t ht⟩

theorem Elsewhere.midway (h : p.Elsewhere done s w)
    (hs : Tidy (p.known s) p.new.num (p.new.shards s) (w.marks s)) : p.Midway (done ++ [s]) w := by
  refine ⟨h.ctl, fun t ht => ?_, fun t ht => ?_⟩
  · rcases eq_or_ne t s with rfl | hne
    · exact hs
    · exact h.moved t (by simpa [hne] using ht) hne
  · have hout : t ∉ done ∧ t ≠ s := by simpa [not_or] using ht
    exact h.todo t hout.1 hout.2

theorem Midway.stable (done : List Tshid) : (successionRules json).Stable (p.Midway done) :=
  fun _ _ _ hk _ h => h.kept hk

theorem step_get {P : World → Prop} (hP : (successionRules json).Stable P) (key : CtrlKey)
    (Q : GetReply CtrlValue → World → Prop) (h : ∀ w, P w → Q (doGet w.ctl ⟨key⟩) w) :
    (successionRules json).Step (.get key) P Q := by
  refine .read (fun _ => rfl) (fun _ => trivial) hP (fun _ _ _ => trivial) ?_
  intro w b r _ hp _ hr
  cases hr
  exact h w hp

theorem safe_query (hw : p.Midway done w) : (successionRules json).Safe
    (fun r w => r = some p.old ∧ p.Midway done w) query w :=
  safe_query_at (step_get (Midway.stable done)) (fun _ h => h.ctl) p.ledger p.config hw

/-- The controller is at work on a shard, and `X` holds of its marks. -/
def Working (p : Plan) (done : List Tshid) (s : Tshid) (X : Marks → Prop) (w : World) : Prop :=
  p.Elsewhere done s w ∧ X (w.marks s)

/-- A call to a group about one shard leaves the others alone. -/
theorem step_shard {op : Op B} {gid : Tgid} {n : ℕ} {X Y : Marks → Prop} (c : Command B)
    (hop : ∀ w, ((service json).serve w op).2 =
      w.setGroup gid ((w.group gid).doOp json (.value c)).1)
    (htarget : c.target = some (s, n))
    (h : ∀ marks kv kv', X marks → marks gid = kv.standing s →
      KVServer.ShardStep json kv c s n kv' → X (Function.update marks gid (kv'.standing s)) ∧
        Y (Function.update marks gid (kv'.standing s))) :
    (successionRules json).Step op (p.Working done s X) fun _ => p.Working done s Y := by
  have hserve : ∀ w, p.Working done s X w → p.Working done s X ((service json).serve w op).2 ∧
      p.Working done s Y ((service json).serve w op).2 := by
    rintro w ⟨helse, hX⟩
    have hvalue : (Rsm.Any.value c).command.target = some (s, n) := htarget
    have hstep := KVServer.shardStep_doOp json (w.group gid) hvalue
    obtain ⟨hX', hY⟩ := h _ _ _ hX rfl hstep
    rw [hop w]
    have hothers : ∀ t, t ≠ s →
        (w.setGroup gid ((w.group gid).doOp json (.value c)).1).marks t = w.marks t := by
      intro t hne
      rw [World.marks_setGroup, Function.update_eq_self_iff]
      exact hstep.standing hne
    have hctl : (w.setGroup gid ((w.group gid).doOp json (.value c)).1).ctl = w.ctl := rfl
    have helse' := helse.kept hctl hothers
    rw [← World.marks_setGroup] at hX' hY
    exact ⟨⟨helse', hX'⟩, helse', hY⟩
  refine ⟨?_, fun _ _ _ => trivial, ?_, ?_⟩
  · rintro w w' - hk - ⟨helse, hX⟩
    refine ⟨helse.kept hk.ctl fun t _ => hk.marks t, ?_⟩
    rw [hk.marks s]
    exact hX
  · intro w b o _ hp _ _
    exact ⟨trivial, trivial, (hserve w hp).1⟩
  · intro w b r _ hp _ _
    exact (hserve w hp).2

section HandOver
variable (p) (s)

/-- Nobody has been asked to take the shard. -/
def Freezing (marks : Marks) : Prop :=
  Leaving (p.known s) p.new.num (p.old.shards s) marks ∧
    ∀ m ∈ (marks (p.new.shards s)).1, m ≤ p.l

def Installing (marks : Marks) : Prop :=
  Leaving (p.known s) p.new.num (p.old.shards s) marks ∧
    Taking p.l p.new.num (marks (p.new.shards s))

def Deleting (marks : Marks) : Prop :=
  Leaving (p.known s) p.new.num (p.old.shards s) marks ∧ TakenBy (p.new.shards s) marks

variable {p} {s}

theorem step_freezeShard (hne : p.old.shards s ≠ p.new.shards s) :
    (successionRules json).Step (.freezeShard (p.old.shards s) ⟨s, p.new.num⟩)
      (p.Working done s (p.Freezing s)) fun _ => p.Working done s (p.Freezing s) := by
  refine step_shard (.freezeShard ⟨s, p.new.num⟩) (fun _ => rfl) rfl ?_
  rintro marks kv kv' ⟨hleaving, hdst⟩ hkv hs
  have hfreezing := hleaving.freezeShard hne hdst (p.known_old s) hkv hs
  exact ⟨hfreezing, hfreezing⟩

theorem step_installShard (hne : p.old.shards s ≠ p.new.shards s) (state : Option B) :
    (successionRules json).Step (.installShard (p.new.shards s) ⟨s, state, p.new.num⟩)
      (p.Working done s (p.Installing s)) fun _ => p.Working done s (p.Deleting s) := by
  refine step_shard (.installShard ⟨s, state, p.new.num⟩) (fun _ => rfl) rfl ?_
  rintro marks kv kv' ⟨hleaving, hdst⟩ hkv hs
  obtain ⟨hleaving', htaking, htaken⟩ := hleaving.installShard hne p.lt hdst hkv hs
  exact ⟨⟨hleaving', htaking⟩, hleaving', htaken⟩

theorem step_deleteShard (hne : p.old.shards s ≠ p.new.shards s) :
    (successionRules json).Step (.deleteShard (p.old.shards s) ⟨s, p.new.num⟩)
      (p.Working done s (p.Deleting s))
      fun _ => p.Working done s (Tidy (p.known s) p.new.num (p.new.shards s)) := by
  refine step_shard (.deleteShard ⟨s, p.new.num⟩) (fun _ => rfl) rfl ?_
  rintro marks kv kv' ⟨hleaving, htaken⟩ hkv hs
  obtain ⟨hleaving', htaken', htidy⟩ := hleaving.deleteShard hne htaken (p.known_old s) hkv hs
  exact ⟨⟨hleaving', htaken'⟩, htidy⟩

/-- The last call about a shard: the old group gives it up. -/
theorem safe_delete (hne : p.old.shards s ≠ p.new.shards s)
    (hw : p.Working done s (p.Deleting s) w) :
    (successionRules json).Safe (fun _ => p.Midway (done ++ [s]))
      (.call (.deleteShard (p.old.shards s) ⟨s, p.new.num⟩) fun _ => .pure ⟨⟩ : Ctrl B PUnit) w :=
  .call _ hw ((step_deleteShard hne).mono fun _ _ h => h.1.midway h.2)

theorem safe_handOver (hs : s ∉ done) (hne : p.old.shards s ≠ p.new.shards s)
    (hw : p.Midway done w) :
    (successionRules json).Safe (fun _ => p.Midway (done ++ [s]))
      (handOver (p.old.shards s) (p.new.shards s) (p.new.groups.lookup (p.new.shards s)) s
        p.new.num) w := by
  have htidy := hw.todo s hs
  have hfreezing : p.Working done s (p.Freezing s) w :=
    ⟨hw.elsewhere, htidy.leaving p.lt.le, htidy.number _⟩
  refine .call _ hfreezing ((step_freezeShard hne).mono fun frozen w hw => ?_)
  refine .bind (safe_makeClerk _ _ ?_)
  have hinstalling : p.Working done s (p.Installing s) w := ⟨hw.1, hw.2.1, Or.inl hw.2.2⟩
  exact .call _ hinstalling ((step_installShard hne frozen.state).mono fun _ w hw =>
    safe_delete hne hw)

end HandOver

theorem safe_moveShard (hs : s ∉ done) (hw : p.Midway done w) :
    (successionRules json).Safe (fun _ => p.Midway (done ++ [s]))
      (moveShard p.old p.new s) w := by
  have htidy := hw.todo s hs
  have hwider := htidy.mono p.lt.le fun _ h => h
  unfold moveShard
  by_cases hne : p.old.shards s = p.new.shards s
  · rw [if_pos hne]
    exact hw.elsewhere.midway (hne ▸ hwider)
  rw [if_neg hne]
  split_ifs with hboth hleft
  · refine .bind ((safe_query hw).mono ?_)
    rintro _ w ⟨rfl, hw⟩
    rw [if_neg (by simp)]
    refine .bind (.bind ((safe_query hw).mono ?_))
    rintro _ w ⟨rfl, hw⟩
    exact .bind (safe_makeClerk _ _ (safe_handOver hs hne hw))
  · have hnone : p.new.shards s = 0 := by_contra fun h => hboth ⟨hleft, h⟩
    refine .bind (.bind ((safe_query hw).mono ?_))
    rintro _ w ⟨rfl, hw⟩
    refine .bind (safe_makeClerk _ _ ?_)
    exact safe_delete hne ⟨hw.elsewhere, (hw.todo s hs).leaving p.lt.le, absurd hnone⟩
  · -- nobody is asked to install a shard that was unassigned
    have hzero : p.old.shards s = 0 := not_not.mp hleft
    have hstranger : Tidy (p.known s) p.new.num (p.new.shards s) (w.marks s) :=
      ⟨hwider.number, hwider.thawed, fun h => htidy.strangers _ (p.first s hzero h),
        hwider.strangers⟩
    exact hw.elsewhere.midway hstranger

theorem safe_moveShards (hw : p.Midway [] w) :
    (successionRules json).Safe (fun _ => p.Midway (List.finRange 12))
      (moveShards p.old p.new) w := by
  apply Rules.Safe.forM p.Midway
  case hs => exact hw
  intro done s rest hlist w hw
  refine safe_moveShard ?_ hw
  have hnodup : (done ++ s :: rest).Nodup := hlist ▸ List.nodup_finRange 12
  intro hmem
  exact (List.disjoint_of_nodup_append hnodup) hmem List.mem_cons_self

/-- Every shard is where the new configuration has it. -/
def Moved (p : Plan) (w : World) : Prop :=
  ∀ s, Tidy (p.known s) p.new.num (p.new.shards s) (w.marks s)

/-- The number is published or not. -/
def Finishing (p : Plan) (w : World) : Prop :=
  (w.ctl = p.ctl ∨ w.ctl = published p.ctl p.new.num p.v) ∧ p.Moved w

theorem Finishing.put (h : p.Finishing w) :
    (doPut w.ctl ⟨.latest, .num p.new.num, p.v⟩).1 = published p.ctl p.new.num p.v := by
  rcases h.1 with hctl | hctl
  · rw [hctl, doPut_publish p.ledger, if_pos rfl]
  · have hpublished : Ledger (published p.ctl p.new.num p.v) p.new.num (p.v + 1) :=
      p.ledger.publish (by simp [p.stored])
    have hv : p.v ≠ p.v + 1 := by simp
    rw [hctl, doPut_publish hpublished, if_neg hv]

theorem safe_publish (hw : p.Midway (List.finRange 12) w) :
    (successionRules json).Safe
      (fun _ w => w.ctl = published p.ctl p.new.num p.v ∧ p.Moved w) (publish p.new.num p.v) w := by
  have hfinishing : p.Finishing w := ⟨Or.inl hw.ctl, fun s => hw.moved s (List.mem_finRange s)⟩
  refine .call p.Finishing hfinishing ⟨?_, fun _ _ _ => trivial, ?_, ?_⟩
  · rintro w w' - hk - ⟨hctl, hmoved⟩
    refine ⟨by rwa [hk.ctl], fun s => ?_⟩
    rw [hk.marks s]
    exact hmoved s
  · intro w b o _ hp _ _
    exact ⟨trivial, trivial, Or.inr hp.put, hp.2⟩
  · intro w b r _ hp _ _
    exact ⟨hp.put, hp.2⟩

theorem safe_carryOut (hw : p.Midway [] w) :
    (successionRules json).Safe (fun _ w => w.ctl = published p.ctl p.new.num p.v ∧ p.Moved w)
      (carryOut p.old p.new) w := by
  refine .call _ hw (step_get (Midway.stable []) _ _ fun w hw => ?_)
  rw [hw.ctl, p.ledger.doGet_latest]
  refine .call _ hw (step_get (Midway.stable []) _ _ fun w hw => ?_)
  rw [hw.ctl, p.ledger.doGet_latest]
  simp only [CtrlValue.atoi, p.lt.not_ge, and_false, if_false]
  exact .bind ((safe_moveShards hw).mono fun _ w hw => safe_publish hw)

end Plan

/-- The configuration is the published one, every shard is where it says, and no configuration
beyond `n` is stored. -/
structure Settled (n : ℕ) (cfg : ShardConfig) (w : World) : Prop where
  ledger : ∃ v, Ledger w.ctl cfg.num v
  config : w.config cfg.num = some cfg
  le : cfg.num ≤ n
  last : ∀ m, n < m → w.config m = none
  tidy : ∀ s, Tidy (w.Routed s) cfg.num (cfg.shards s) (w.marks s)

section Changes
variable {json : Json B} {w w' : World} {old new : ShardConfig} {n : ℕ} {v : Tversion}

theorem routed_of_ctl (hctl : w'.ctl = w.ctl) : w'.Routed = w.Routed := by
  unfold World.Routed World.latest World.config
  rw [hctl]

theorem Settled.kept (h : Settled n old w) (hk : MarksKept w w') : Settled n old w' := by
  refine ⟨?_, ?_, h.le, fun m hm => ?_, fun s => ?_⟩
  · rw [hk.ctl]
    exact h.ledger
  · rw [World.config, hk.ctl]
    exact h.config
  · rw [World.config, hk.ctl]
    exact h.last m hm
  · rw [hk.marks s, routed_of_ctl hk.ctl]
    exact h.tidy s

theorem routed_mono {l l' : ℕ} {v' : Tversion} (hv : Ledger w.ctl l v) (hv' : Ledger w'.ctl l' v')
    (hl : l ≤ l') (hconfig : ∀ m ≤ l, w'.config m = w.config m) (s : Tshid) (g : Tgid)
    (h : w.Routed s g) : w'.Routed s g := by
  obtain ⟨m, cfg, hm, hcfg, hshard⟩ := (hv.routed_iff s g).mp h
  exact (hv'.routed_iff s g).mpr ⟨m, cfg, hm.trans hl, (hconfig m hm).trans hcfg, hshard⟩

/-- The plan of a change from the published configuration. -/
def Settled.plan (h : Settled n old w) (hv : Ledger w.ctl old.num v) (hlt : n < new.num)
    (hfirst : ∀ s, old.shards s = 0 → new.shards s ≠ 0 → ¬w.Routed s (new.shards s)) : Plan where
  ctl := claimed w.ctl new
  l := old.num
  v := v
  old := old
  new := new
  known := w.Routed
  ledger := hv.claim
  config := by
    rw [storedConfig_claimed, if_neg (h.le.trans_lt hlt).ne]
    exact h.config
  stored := by rw [storedConfig_claimed, if_pos rfl]
  lt := h.le.trans_lt hlt
  known_old s := (hv.routed_iff s _).mpr ⟨old.num, old, le_rfl, h.config, rfl⟩
  first := hfirst

/-- With the new configuration stored, later ones are still missing and the published ones as before. -/
theorem Settled.stored (h : Settled n old w) (hlt : n < new.num)
    (hconfig : ∀ m, w'.config m = if m = new.num then some new else w.config m) :
    (∀ m, new.num < m → w'.config m = none) ∧ ∀ m ≤ old.num, w'.config m = w.config m := by
  constructor
  · intro m hm
    rw [hconfig, if_neg hm.ne']
    exact h.last m (hlt.trans hm)
  · intro m hm
    rw [hconfig, if_neg (hm.trans_lt (h.le.trans_lt hlt)).ne]

theorem Settled.claim (h : Settled n old w) (hlt : n < new.num) (hctl : w'.ctl = claimed w.ctl new)
    (hmarks : ∀ s, w'.marks s = w.marks s) : Settled new.num old w' := by
  obtain ⟨v, hv⟩ := h.ledger
  have hold : old.num < new.num := h.le.trans_lt hlt
  have hconfig : ∀ m, w'.config m = if m = new.num then some new else w.config m := by
    intro m
    rw [World.config, hctl, storedConfig_claimed]
    rfl
  obtain ⟨hlast, hlow⟩ := h.stored hlt hconfig
  have hledger : Ledger w'.ctl old.num v := hctl ▸ hv.claim
  refine ⟨⟨v, hledger⟩, ?_, hold.le, hlast, fun s => ?_⟩
  · rw [hconfig, if_neg hold.ne]
    exact h.config
  · rw [hmarks s]
    exact (h.tidy s).mono le_rfl (routed_mono hv hledger le_rfl hlow s)

theorem Settled.publish (h : Settled n old w) (hv : Ledger w.ctl old.num v) (hlt : n < new.num)
    (hctl : w'.ctl = published (claimed w.ctl new) new.num v)
    (hmoved : ∀ s, Tidy (w.Routed s) new.num (new.shards s) (w'.marks s)) :
    Settled new.num new w' := by
  have hold : old.num < new.num := h.le.trans_lt hlt
  have hconfig : ∀ m, w'.config m = if m = new.num then some new else w.config m := by
    intro m
    rw [World.config, hctl, storedConfig_published, storedConfig_claimed]
    rfl
  have hledger : Ledger w'.ctl new.num (v + 1) := by
    rw [hctl]
    exact hv.claim.publish (by simp [storedConfig_claimed])
  obtain ⟨hlast, hlow⟩ := h.stored hlt hconfig
  refine ⟨⟨v + 1, hledger⟩, ?_, le_rfl, hlast, fun s => ?_⟩
  · rw [hconfig, if_pos rfl]
  · exact (hmoved s).mono le_rfl (routed_mono hv hledger hold.le hlow s)

/-- A call of `ChangeConfigTo` has returned. -/
def Returned (new : ShardConfig) (w : World) : Prop :=
  ∃ cfg, Settled new.num cfg w ∧ (w.latest = some new.num → cfg = new)

theorem stable_returned : (successionRules json).Stable (Returned new) := by
  rintro w w' - hk - ⟨cfg, hsettled, hlatest⟩
  refine ⟨cfg, hsettled.kept hk, ?_⟩
  rw [World.latest, hk.ctl]
  exact hlatest

/-- The claim has been served or not; the groups have not been asked anything. -/
def Claims (w₀ : World) (new : ShardConfig) (w : World) : Prop :=
  (w.ctl = w₀.ctl ∨ w.ctl = claimed w₀.ctl new) ∧ ∀ s, w.marks s = w₀.marks s

theorem Claims.put (h : Claims w new w') (hv : Ledger w.ctl old.num v)
    (hfree : w.config new.num = none) :
    (doPut w'.ctl ⟨.config (.num new.num), .config new, 0⟩).1 = claimed w.ctl new := by
  rcases h.1 with hctl | hctl
  · rw [hctl, doPut_claim hfree hv]
  · have hstored : storedConfig (claimed w.ctl new) new.num = some new := by
      rw [storedConfig_claimed, if_pos rfl]
    rw [hctl, doPut_claim_again hstored hv.claim]

theorem stable_claims (w₀ : World) : (successionRules json).Stable (Claims w₀ new) := by
  rintro w w' - hk - ⟨hctl, hmarks⟩
  exact ⟨by rwa [hk.ctl], fun s => (hk.marks s).trans (hmarks s)⟩

theorem safe_changeConfigTo_settled (h : Settled n old w) (hlt : n < new.num)
    (hfirst : ∀ s, old.shards s = 0 → new.shards s ≠ 0 → ¬w.Routed s (new.shards s)) :
    (successionRules json).Safe (fun _ => Returned new) (changeConfigTo new) w := by
  obtain ⟨v, hv⟩ := h.ledger
  have hstable : (successionRules json).Stable (MarksKept w) := fun w₁ w₂ _ hk _ h₁ =>
    ⟨hk.ctl.trans h₁.ctl, fun s => (hk.marks s).trans (h₁.marks s)⟩
  have hrefl : MarksKept w w := ⟨rfl, fun _ => rfl⟩
  refine .bind ((safe_query_at (Plan.step_get hstable) (fun _ h => h.ctl) hv h.config hrefl).mono ?_)
  rintro _ w₁ ⟨rfl, hkept⟩
  change Rules.Safe _ _ (if old.num ≥ new.num then _ else _) w₁
  rw [if_neg (h.le.trans_lt hlt).not_ge]
  refine .call (Claims w new) ⟨Or.inl hkept.ctl, hkept.marks⟩
    ⟨stable_claims w, fun _ _ _ => trivial, ?_, ?_⟩
  · intro w₂ b o _ hp _ _
    exact ⟨trivial, trivial, Or.inr (hp.put hv (h.last _ hlt)), hp.2⟩
  · intro w₂ b err _ hp _ _
    have hctl := hp.put hv (h.last _ hlt)
    split_ifs
    · have hsettled : Settled new.num old
          ((service json).serve w₂ (.put ⟨.config (.num new.num), .config new, 0⟩)).2 :=
        h.claim hlt hctl hp.2
      refine ⟨old, hsettled, fun hlatest => ?_⟩
      obtain ⟨v', hv'⟩ := hsettled.ledger
      have hnum : old.num = new.num := Option.some.inj (hv'.latest_eq.symm.trans hlatest)
      exact absurd hnum (h.le.trans_lt hlt).ne
    · have hmidway : (h.plan hv hlt hfirst).Midway []
          ((service json).serve w₂ (.put ⟨.config (.num new.num), .config new, 0⟩)).2 := by
        refine ⟨hctl, nofun, fun s _ => ?_⟩
        exact (hp.2 s) ▸ h.tidy s
      refine (Plan.safe_carryOut hmidway).mono fun _ w₃ hdone => ?_
      exact ⟨new, h.publish hv hlt hdone.1 hdone.2, fun _ => rfl⟩

end Changes

section Runs
variable {json : Json B} {first : ShardConfig}

def Succession.Safe (json : Json B) (c : Succession B) : Prop :=
  (successionRules json).Safe (fun _ => Returned c.target) c.run.prog c.world

theorem Succession.safe_init : (Succession.init json first).Safe json := by
  obtain ⟨hbook, hfirst, hnone⟩ :
      Book (fun _ => True) (System.init json first).world.ctl first.num 1 ∧
        storedConfig (System.init json first).world.ctl first.num = some first ∧
        ∀ n, n ≠ first.num → storedConfig (System.init json first).world.ctl n = none :=
    book_init json trivial
  refine ⟨first, ⟨⟨1, hbook.ledger⟩, hfirst, le_rfl, fun m hm => hnone m hm.ne', fun s => ?_⟩,
    fun _ => rfl⟩
  have hmarks : (Succession.init json first).world.marks s = fun _ => (none, false, false) := by
    funext g
    simp [World.marks, KVServer.standing, init, System.init, initConfig, Prog.exec, service,
      KVServer.start]
  rw [hmarks]
  exact ⟨by simp, fun _ => rfl, fun _ => rfl, fun _ _ => rfl⟩

theorem Succession.Safe.step {c c' : Succession B} {a : SuccessionAction} (h : c.Safe json)
    (hg : FirstAssignment c a) (hs : c.step json a = some c') : c'.Safe json := by
  cases a with
  | changeConfigTo new =>
    obtain ⟨hpure, hlt, rfl⟩ := step_changeConfigTo hs
    unfold Succession.Safe at h
    rw [hpure] at h
    obtain ⟨old, hsettled, -⟩ := h
    obtain ⟨v, hv⟩ := hsettled.ledger
    exact safe_changeConfigTo_settled hsettled hlt
      (hg old.num hv.latest_eq old hsettled.config)
  | attempt o =>
    obtain ⟨⟨run, w⟩, hr, rfl⟩ := Option.map_eq_some_iff.mp hs
    have hattempt : c.run.attempt (successionRules json).service o c.world = some (run, w) := hr
    have hguar : (successionRules json).guar c.world c.world := trivial
    exact (Rules.Safe.attempt trivial hguar h (fun _ _ => trivial) hattempt).2.2
  | clientPut gid args =>
    cases hs
    exact Rules.Safe.stable (fun _ => stable_returned) c.run.prog _ _ trivial
      (marksKept_clientPut json c.world gid args) trivial h

/-- In every run in which a shard that is unassigned goes only to a group that has never had it,
a group answers the clients of its shards when `ChangeConfigTo` has returned. -/
theorem served_after_change (c : Succession B)
    (h : Reaches (Succession.step json) FirstAssignment (Succession.init json first) c)
    (hret : c.run.prog = .pure ⟨⟩) (hlatest : c.world.latest = some c.target.num) (s : Tshid)
    (hs : c.target.shards s ≠ 0) : AnswersClients (c.world.group (c.target.shards s)) s := by
  have hkept : ∀ c a c', Succession.Safe json c → FirstAssignment c a →
      Succession.step json c a = some c' → Succession.Safe json c' :=
    fun c a c' hc hg hstep => hc.step hg hstep
  have hsafe := h.invariant Succession.safe_init hkept
  unfold Succession.Safe at hsafe
  rw [hret] at hsafe
  obtain ⟨cfg, hsettled, hcfg⟩ := hsafe
  obtain rfl := hcfg hlatest
  have htidy := hsettled.tidy s
  exact answersClients ⟨htidy.owner hs, htidy.thawed _⟩

/-- Shard 0 is taken from group 1, is unassigned for a while and goes to group 2. -/
theorem served_after_change_elsewhere : ∃ c : Succession Entries,
    Reaches (Succession.step plainJson) FirstAssignment
      (Succession.init plainJson (twoGroups 1 1)) c ∧
      c.target = twoGroups 3 2 ∧ AnswersClients (c.world.group 2) 0 := by
  obtain ⟨c, hreach, htarget, hret, hlatest⟩ :=
    exists_reaches (Succession.step plainJson) FirstAssignment
      (Succession.init plainJson (twoGroups 1 1))
      ([.changeConfigTo (twoGroups 2 0) :: List.replicate 9 (.attempt .answered),
        .changeConfigTo (twoGroups 3 2) :: List.replicate 6 (.attempt .answered)] :
        List (List SuccessionAction)).flatten
      (fun c => c.target = twoGroups 3 2 ∧ c.run.prog = .pure ⟨⟩ ∧ c.world.latest = some 3)
      ⟨_, by rfl, by rfl, by rfl, by rfl⟩
  have hnum : c.target.num = 3 := by rw [htarget]; rfl
  have hshard : c.target.shards 0 = 2 := by rw [htarget]; rfl
  have hanswers := served_after_change c hreach hret (hnum ▸ hlatest) 0 (by rw [hshard]; decide)
  rw [hshard] at hanswers
  exact ⟨c, hreach, htarget, hanswers⟩

/-- Shard 0 is taken from group 1, is unassigned for a while and comes back to group 1, which
sends the clients of key `m` elsewhere. -/
theorem shard_not_served_again : ∃ c : Succession Entries,
    Reaches (Succession.step plainJson) anyStep (Succession.init plainJson (twoGroups 1 1)) c ∧
      c.target = twoGroups 3 1 ∧ c.run.prog = .pure ⟨⟩ ∧ c.world.latest = some 3 ∧
      key2Shard [109] = 0 ∧ ((c.world.group 1).get ⟨[109]⟩).err = .errWrongGroup :=
  exists_reaches (Succession.step plainJson) anyStep (Succession.init plainJson (twoGroups 1 1))
    ([.changeConfigTo (twoGroups 2 0) :: List.replicate 9 (.attempt .answered),
      .changeConfigTo (twoGroups 3 1) :: List.replicate 6 (.attempt .answered)] :
      List (List SuccessionAction)).flatten
    _ ⟨_, by rfl, by rfl, by rfl, by rfl, by decide, by rfl⟩

end Runs

end DistributedLabs.ShardKv
